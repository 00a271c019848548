import PlaybackCues.Proofs.Resolver.Coherence

set_option autoImplicit false

/-!
# What a resolver takes from its list

Only loading changes the list of a resolver. What is active and what is executed are ids of cues in
that list, whatever lists have been loaded before and whatever has been done since.
-/
namespace PlaybackCues.Resolver

/-! ## The list -/

theorem detect_cues (r : Resolver) (now : Seconds) : (r.detect now).resolver.cues = r.cues := by
  have hd := r.detected now
  generalize r.detect now = a at hd ⊢
  cases hd with
  | restarted => exact r.leave_cues
  | moved => exact r.leave_cues
  | still => rfl

theorem idle_cues (quiet : Bool) (s : Snapshot) (r : Resolver) :
    (r.idle quiet s).resolver.cues = r.cues := by
  obtain ⟨defaults, restore, hidle⟩ := idle_resolver quiet s r
  rw [hidle]
  split
  · rfl
  · exact activate_cues _ s.time

theorem continueActive_cues (r : Resolver) (s : Snapshot) :
    (r.continueActive s).resolver.cues = r.cues := by
  have hp := r.passage s
  generalize r.continueActive s = o at hp
  cases hp with
  | jump c next hc hcov hm hn =>
    exact chain_cues (r.finish c) c next s.time
  | _ => rfl

theorem tick_cues (r : Resolver) (s : Snapshot) : (r.tick s).resolver.cues = r.cues :=
  tick_keeps (P := fun q => q.cues = r.cues) (fun _ _ _ h => h)
    (fun q h => (q.detect_cues s.time).trans h) (fun q h => (q.continueActive_cues s).trans h)
    (fun quiet q h => (idle_cues quiet s q).trans h) (fun _ => r.leave_cues) rfl

theorem load_cues (r : Resolver) (cues : List Cue) :
    (r.load cues).resolver.cues = byIndex cues := by
  by_cases h : r.active.all (knows cues) = true
  · rw [load_kept h]
  · rw [load_lost h]

/-! ## The ids -/

structure Listed (r : Resolver) : Prop where
  active : ∀ id, r.active = some id → id ∈ r.ids
  executed : ∀ id ∈ r.executed, id ∈ r.ids

namespace Listed

variable {r : Resolver}

theorem new (t : Tolerances) : Listed { tolerances := t } := by
  constructor <;> simp

theorem ids_eq {q : Resolver} (h : q.cues = r.cues) : q.ids = r.ids := by
  rw [ids, h, ids]

theorem keep (h : r.Listed) {q : Resolver} (hcues : q.cues = r.cues) (ha : q.active = r.active)
    (he : q.executed = r.executed) : q.Listed where
  active id hid := by
    rw [ids_eq hcues]
    exact h.active id (ha ▸ hid)
  executed id hid := by
    rw [ids_eq hcues]
    exact h.executed id (he ▸ hid)

/-- Nothing is active, and nothing more is executed. -/
theorem rest (h : r.Listed) {q : Resolver} (hcues : q.cues = r.cues) (ha : q.active = none)
    (he : q.executed ⊆ r.executed) : q.Listed where
  active id hid := by
    rw [ha] at hid
    cases hid
  executed id hid := by
    rw [ids_eq hcues]
    exact h.executed id (he hid)

theorem clear (h : r.Listed) : r.clear.resolver.Listed :=
  h.rest r.leave_cues r.leave_active (List.nil_subset _)

theorem moveTo (now : Seconds) : (r.moveTo now).resolver.Listed where
  active id hid := by
    have hnone : (r.moveTo now).resolver.active = none := r.leave_active
    rw [hnone] at hid
    cases hid
  executed _ hid := Coherent.passed_mem (r := r.leave.resolver) hid

theorem detect (h : r.Listed) (now : Seconds) : (r.detect now).resolver.Listed := by
  have hd := r.detected now
  generalize r.detect now = a at hd ⊢
  cases hd with
  | restarted => exact h.clear
  | moved => exact moveTo now
  | still => exact h

theorem finish (h : r.Listed) {c : Cue} (hc : r.activeCue? = some c) : (r.finish c).Listed where
  active id hid := by cases hid
  executed id hid := by
    rcases mem_retire.mp hid with hid | hid
    · rw [List.mem_singleton.mp hid]
      exact Coherent.mem_ids (activeCue?_some hc).1
    · exact h.executed id hid

theorem chain (h : r.Listed) {c next : Cue} {now : Seconds} (hn : r.successor? c = some next) :
    (r.chain c next now).resolver.Listed := by
  have hids : (r.chain c next now).resolver.ids = r.ids := ids_eq (chain_cues r c next now)
  constructor
  · intro id hid
    cases hid
    rw [hids]
    exact Coherent.mem_ids (Coherent.successor?_some hn).1
  · intro id hid
    rw [hids]
    rcases Coherent.chain_executed hid with hid | hid
    · exact h.executed id hid
    · exact hid.1

theorem continueActive (h : r.Listed) (s : Snapshot) : (r.continueActive s).resolver.Listed := by
  have hp := r.passage s
  generalize r.continueActive s = o at hp
  cases hp with
  | hold c hc hcov => exact h.keep rfl rfl rfl
  | jump c next hc hcov hm hn => exact (h.finish hc).chain hn
  | pause c seconds hc hcov hm => exact (h.finish hc).keep rfl rfl rfl
  | finish c hc hcov hm => exact (h.finish hc).keep rfl rfl rfl
  | lost id ha hc => exact h.rest rfl rfl (List.Subset.refl _)
  | rest ha => exact h

theorem activate (h : r.Listed) (now : Seconds) : (r.activate now).resolver.Listed := by
  have hs := r.started now
  generalize r.activate now = a at hs ⊢
  cases hs with
  | begun c hc =>
    obtain ⟨hmem, _⟩ := due?_some hc
    constructor
    · intro id hid
      cases hid
      exact Coherent.mem_ids hmem
    · intro id hid
      rcases mem_retire.mp hid with hid | hid
      · obtain ⟨d, hd, rfl, _⟩ := mem_overtaken.mp hid
        exact Coherent.mem_ids hd
      · exact h.executed id hid
  | still => exact h

theorem idle (h : r.Listed) (quiet : Bool) (s : Snapshot) : (r.idle quiet s).resolver.Listed := by
  obtain ⟨defaults, restore, hidle⟩ := idle_resolver quiet s r
  have hq : Listed { r with defaults := defaults, restore := restore } := h.keep rfl rfl rfl
  rw [hidle]
  split
  · exact h.keep rfl rfl rfl
  · exact (hq.activate s.time).keep rfl rfl rfl

theorem reset (h : r.Listed) : r.reset.resolver.Listed := h.clear.keep rfl rfl rfl

theorem tick (h : r.Listed) (s : Snapshot) : (r.tick s).resolver.Listed :=
  tick_keeps (fun _ _ _ h => h.keep rfl rfl rfl) (fun _ h => h.detect s.time)
    (fun _ h => h.continueActive s) (fun quiet _ h => h.idle quiet s) (fun h => h.reset) h

theorem load (r : Resolver) (cues : List Cue) : (r.load cues).resolver.Listed := by
  have hids : ∀ id, knows cues id = true → id ∈ (byIndex cues).map fun c => c.id := by
    simp [knows]
  have hexecuted : ∀ id ∈ r.executed.filter (knows cues), id ∈ (byIndex cues).map fun c => c.id :=
    fun id hid => hids id (List.mem_filter.mp hid).2
  by_cases ha : r.active.all (knows cues) = true
  · rw [load_kept ha]
    refine ⟨fun id hid => hids id ?_, hexecuted⟩
    change r.active = some id at hid
    simpa [hid] using ha
  · rw [load_lost ha]
    refine ⟨fun id hid => ?_, hexecuted⟩
    cases hid

theorem act (h : r.Listed) (a : Action) : (r.act a).resolver.Listed := by
  cases a with
  | load cues => exact load r cues
  | tick s => exact h.tick s
  | userSeek target => exact moveTo _
  | resumeDue =>
    change r.resumeDue.resolver.Listed
    rw [resumeDue_resolver]
    exact h.keep rfl rfl rfl
  | reset => exact h.reset
  | endOfMedia => exact h.reset

theorem run (h : r.Listed) (as : List Action) : (r.run as).Listed := by
  induction as generalizing r with
  | nil => exact h
  | cons a as ih => exact ih (h.act a)

end Listed

end PlaybackCues.Resolver
