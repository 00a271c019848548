import PlaybackCues.Proofs.Resolver.Coherence

set_option autoImplicit false

/-!
# Waiting for the end of a pause

A tick that pauses makes the resolver wait, and what ends the wait is the end of the pause or an
action that forgets the pass. Of the ways in which a pass starts anew, two do not always forget it:
a seek of the user to the start never does, and the end of the media only does when a cue is active
or executed. After these the player is still told to play when the pause is over.
-/
namespace PlaybackCues

theorem LevelsOnly.pause_notMem {ds : List Directive} (h : LevelsOnly ds) : .pause ∉ ds :=
  h.notMem rfl

namespace Resolver

theorem phase_paused_iff {r : Resolver} : r.phase = .paused ↔ r.awaiting = true := by
  unfold phase
  cases r.awaiting with
  | true => exact iff_of_true rfl rfl
  | false =>
    refine iff_of_false (fun h => ?_) Bool.false_ne_true
    split at h
    · contradiction
    · split at h
      · split at h <;> cases h
      · cases h

theorem resumeDue_directives (r : Resolver) :
    r.resumeDue.directives = if r.phase = .paused then [.play] else [] := by
  unfold resumeDue
  simp only [phase_paused_iff]
  split <;> rfl

/-! ## What an action does to the wait -/

def endsWait (r : Resolver) : Action → Bool
  | .resumeDue | .reset | .endOfMedia => true
  | .tick s =>
    if s.state = .ended then r.active.isSome || !r.executed.isEmpty
    else
      match r.settle s.time with
      | .waiting _ => false
      | .done q => q.restarted s.time
  | .load _ | .userSeek _ => false

theorem detect_awaiting (r : Resolver) (now : Seconds) :
    (r.detect now).resolver.awaiting = (!r.restarted now && r.awaiting) := by
  have hd := r.detected now
  generalize r.detect now = a at hd ⊢
  cases hd with
  | restarted hr =>
    rw [hr]
    rfl
  | moved hr =>
    rw [hr]
    exact r.leave_awaiting
  | still hr => simp [hr]

theorem idle_awaiting (quiet : Bool) (s : Snapshot) (r : Resolver) :
    (r.idle quiet s).resolver.awaiting = r.awaiting := by
  obtain ⟨defaults, restore, hidle⟩ := idle_resolver quiet s r
  rw [hidle]
  split
  · rfl
  · exact activate_awaiting _ s.time

theorem evaluate_awaiting (r : Resolver) (s : Snapshot) :
    (r.evaluate s).resolver.awaiting = true ↔
      r.restarted s.time = false ∧ (.pause ∈ (r.evaluate s).directives ∨ r.awaiting = true) := by
  have hkeep : ∀ {a : Response}, a.resolver.awaiting = (r.detect s.time).resolver.awaiting →
      .pause ∉ a.directives → (a.resolver.awaiting = true ↔
        r.restarted s.time = false ∧ (.pause ∈ a.directives ∨ r.awaiting = true)) := by
    intro a ha hp
    rw [ha, detect_awaiting]
    simp [hp]
  have hd := r.detect_levelsOnly s.time
  have hp := (r.detect s.time).resolver.passage s
  generalize ho : (r.detect s.time).resolver.continueActive s = o at hp
  -- the tick goes on without a cue
  have hidle : ∀ {rest : Response}, o = .idle rest →
      rest.resolver.awaiting = (r.detect s.time).resolver.awaiting →
      ((r.evaluate s).resolver.awaiting = true ↔
        r.restarted s.time = false ∧ (.pause ∈ (r.evaluate s).directives ∨ r.awaiting = true)) := by
    intro rest hrest ha
    refine hkeep ?_ (evaluate_idle_levelsOnly (ho.trans hrest)).pause_notMem
    rw [evaluate_idle (ho.trans hrest)]
    exact (idle_awaiting _ s _).trans ha
  cases hp with
  | hold c hc hcov =>
    rw [evaluate_stop ho]
    exact hkeep rfl (hd.append (correction_levelsOnly _ _ _)).pause_notMem
  | jump c next hc hcov hm hn =>
    rw [evaluate_stop ho]
    refine hkeep (chain_awaiting _ _ _ _) fun hmem => ?_
    rcases List.mem_append.mp hmem with hmem | hmem
    · exact hd.pause_notMem hmem
    · rcases List.mem_append.mp hmem with hmem | hmem
      · exact (levelsOnly_directives next.levels).pause_notMem hmem
      · cases List.mem_singleton.mp hmem
  | pause c seconds hc hcov hm =>
    have hact : (r.detect s.time).resolver.active.isSome = true := by
      rw [(activeCue?_some hc).2]
      rfl
    rw [evaluate_stop ho]
    exact iff_of_true rfl ⟨(detect_active hact).1, .inl (by simp)⟩
  | finish => exact hidle rfl rfl
  | lost => exact hidle rfl rfl
  | rest => exact hidle rfl rfl

theorem tickEnded_awaiting (r : Resolver) (now : Seconds) :
    (r.tickEnded now).resolver.awaiting = (!(r.active.isSome || !r.executed.isEmpty) && r.awaiting) := by
  unfold tickEnded
  cases r.active.isSome || !r.executed.isEmpty <;> rfl

theorem tick_awaiting (r : Resolver) (s : Snapshot) :
    (r.tick s).resolver.awaiting = true ↔
      r.endsWait (.tick s) = false ∧ (.pause ∈ (r.tick s).directives ∨ r.awaiting = true) := by
  have ht := r.ticked s
  generalize r.tick s = a at ht ⊢
  cases ht with
  | renewed hs hbegun => simp [endsWait, hs, hbegun, reset, clear]
  | finished hs hbegun => simp [endsWait, hs, hbegun]
  | waiting f hs hq => simp [endsWait, hs, hq]
  | evaluated q hs hq =>
    simp only [endsWait, if_neg hs, hq]
    obtain ⟨last, rfl⟩ := settle_done hq
    exact evaluate_awaiting _ s

theorem userSeek_awaiting (r : Resolver) (target : Seconds) :
    (r.userSeek target).resolver.awaiting = r.awaiting := leave_awaiting _

/-! ## Passes that start anew -/

/-- A reset, the end of the media, or a way back to the start of it. -/
inductive Renews (r : Resolver) : Action → Prop where
  | reset : Renews r .reset
  | endOfMedia : Renews r .endOfMedia
  | ended (s : Snapshot) : s.state = .ended → Renews r (.tick s)
  | restart (s : Snapshot) (q : Resolver) : s.state ≠ .ended → r.settle s.time = .done q →
      q.restarted s.time = true → Renews r (.tick s)
  | seekToStart (target : Seconds) : target ≤ r.tolerances.restart →
      r.tolerances.seek < r.last - target → Renews r (.userSeek target)

/-- A pause outlives the start of a new pass exactly when that is a seek of the user, or the end of
the media seen by a tick while no cue is executed; otherwise nothing is played when it is over. -/
theorem paused_after_renewal_iff {t : Tolerances} {r : Resolver} (hr : Reachable t r) {a : Action}
    (ha : Renews r a) :
    ((r.act a).resolver.phase = .paused ↔ r.phase = .paused ∧ ((∃ target, a = .userSeek target) ∨
      ∃ s, a = .tick s ∧ s.state = .ended ∧ r.executed = [])) ∧
    (r.act a).resolver.resumeDue.directives =
      if (r.act a).resolver.phase = .paused then [.play] else [] := by
  refine ⟨?_, resumeDue_directives _⟩
  simp only [phase_paused_iff]
  cases ha with
  | reset => exact iff_of_false (by simp [act, reset, clear]) (by simp)
  | endOfMedia => exact iff_of_false (by simp [act, endOfMedia, reset, clear]) (by simp)
  | ended s hs =>
    change (r.tick s).resolver.awaiting = true ↔ _
    rw [tick_ended hs, tickEnded_awaiting]
    cases hw : r.awaiting with
    | false => simp
    | true => simp [hr.coherent.awaiting_idle hw, hs]
  | restart s q hs hq hrest =>
    refine iff_of_false ?_ ?_
    · change ¬ (r.tick s).resolver.awaiting = true
      rw [tick_awaiting]
      simp [endsWait, hs, hq, hrest]
    · simp [hs]
  | seekToStart target hle hfar =>
    change (r.userSeek target).resolver.awaiting = true ↔ _
    rw [userSeek_awaiting]
    simp

def oneToFour : CueSpec := ⟨1, 4, 30, 1, .pause 3⟩

def fiveToSix : CueSpec := ⟨5, 6, 70, 1, .natural⟩

def paused : Resolver :=
  run { tolerances := {}, cues := [oneToFour.rounded.place 0 0, fiveToSix.rounded.place 1 0] }
    [.tick ⟨1, 100, 1, .playing⟩, .tick ⟨2.5, 30, 1, .playing⟩, .tick ⟨4.125, 30, 1, .playing⟩]

theorem paused_reachable : Reachable {} paused :=
  (Reachable.loaded {} (built_pair (by decide +kernel) (by decide +kernel) (by decide +kernel))
    (by decide)).run fun a ha => by
      simp only [List.mem_cons, List.not_mem_nil, or_false] at ha
      rcases ha with rfl | rfl | rfl <;> trivial

/-- The player is told to play after a seek to the start, and at the end of the media after a seek
into the cue that paused it. -/
theorem paused_outlives_renewal :
    let seek := Action.userSeek 0
    let ended := Action.tick ⟨2, 100, 1, .ended⟩
    let back := (paused.userSeek 2).resolver
    Renews paused seek ∧ (paused.act seek).resolver.phase = .paused ∧
      (paused.act seek).resolver.resumeDue.directives = [.play] ∧
    Renews back ended ∧ (back.act ended).resolver.phase = .paused ∧
      (back.act ended).resolver.resumeDue.directives = [.play] := by
  have hseek : Renews paused (.userSeek 0) := .seekToStart 0 (by decide +kernel) (by decide +kernel)
  have hended : Renews (paused.userSeek 2).resolver (.tick ⟨2, 100, 1, .ended⟩) := .ended _ rfl
  have hback := paused_reachable.act (.userSeek 2) trivial
  obtain ⟨hs, hplay⟩ := paused_after_renewal_iff paused_reachable hseek
  obtain ⟨he, hplay'⟩ := paused_after_renewal_iff hback hended
  have hs := hs.mpr ⟨by decide +kernel, .inl ⟨0, rfl⟩⟩
  have he := he.mpr ⟨by decide +kernel, .inr ⟨_, rfl, rfl, by decide +kernel⟩⟩
  exact ⟨hseek, hs, hplay.trans (if_pos hs), hended, he, hplay'.trans (if_pos he)⟩

end Resolver

end PlaybackCues
