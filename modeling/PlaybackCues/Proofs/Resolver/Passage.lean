import PlaybackCues.Resolver.Obedience

set_option autoImplicit false

/-!
# What a tick can do

A tick first settles a seek in flight and looks for a displacement of the player; then it examines
the active cue, and at last it goes on without one. `Passage` lists what examining the active cue
can lead to, and `Settled`, `Detected`, `Left`, `DefaultsTracked` and `Started` do so for the other
parts. `expiring?` is the cue that a tick finds over, and `tick_sends` says that apart from
levels nothing is sent by a tick unless such a cue has a jump or a pause. Invariants walk through a
tick by `evaluate_keeps` and `idle_keeps`, or by `tick_keeps` when they are about the resolver only.
-/
namespace PlaybackCues

def Directive.isLevel : Directive → Bool
  | .setVolume _ | .setRate _ => true
  | _ => false

def Directive.isJump : Directive → Bool
  | .seek _ .engine => true
  | _ => false

def LevelsOnly (ds : List Directive) : Prop := ∀ d ∈ ds, d.isLevel = true

theorem levelsOnly_nil : LevelsOnly [] := by
  intro d hd
  cases hd

theorem LevelsOnly.append {ds es : List Directive} (hd : LevelsOnly ds) (he : LevelsOnly es) :
    LevelsOnly (ds ++ es) := by
  intro d h
  rcases List.mem_append.mp h with h | h
  · exact hd d h
  · exact he d h

theorem LevelsOnly.notMem {ds : List Directive} (h : LevelsOnly ds) {d : Directive}
    (hd : d.isLevel = false) : d ∉ ds :=
  fun hmem => Bool.noConfusion (hd.symm.trans (h d hmem))

theorem levelsOnly_directives (l : Levels) : LevelsOnly l.directives := by
  intro d hd
  simp only [Levels.directives, List.mem_cons, List.not_mem_nil, or_false] at hd
  rcases hd with rfl | rfl <;> rfl

namespace Resolver

/-! ## Parts of a tick -/

theorem find?_some {r : Resolver} {id : Uuid} {c : Cue} (h : r.find? id = some c) :
    c ∈ r.cues ∧ c.id = id := by
  have hid := List.find?_some h
  exact ⟨List.mem_of_find?_eq_some h, by simpa using hid⟩

theorem activeCue?_some {r : Resolver} {c : Cue} (h : r.activeCue? = some c) :
    c ∈ r.cues ∧ r.active = some c.id := by
  unfold activeCue? at h
  obtain ⟨id, ha, hf⟩ := Option.bind_eq_some_iff.mp h
  obtain ⟨hc, rfl⟩ := find?_some hf
  exact ⟨hc, ha⟩

theorem active_of_activeCue? {r : Resolver} {c : Cue} (h : r.activeCue? = some c) :
    r.active ≠ none := by
  rw [(activeCue?_some h).2]
  exact Option.some_ne_none c.id

theorem mem_foldl_insert {done ids : List Uuid} {id : Uuid} :
    id ∈ ids.foldl (fun done id => done.insert id) done ↔ id ∈ ids ∨ id ∈ done := by
  induction ids generalizing done with
  | nil => simp
  | cons i ids ih =>
    rw [List.foldl_cons, ih, List.mem_insert_iff, List.mem_cons, or_assoc, or_left_comm]

@[simp] theorem mem_retire {r : Resolver} {ids : List Uuid} {id : Uuid} :
    id ∈ (r.retire ids).executed ↔ id ∈ ids ∨ id ∈ r.executed := mem_foldl_insert

def finish (r : Resolver) (c : Cue) : Resolver := { r.retire [c.id] with active := none }

theorem expire_eq (r : Resolver) (c : Cue) (now : Seconds) :
    r.expire c now =
      match c.mode with
      | .natural => .idle (r.finish c).restoreDefaults
      | .jump =>
        match (r.finish c).successor? c with
        | some next => .stop ((r.finish c).chain c next now)
        | none => .idle (r.finish c).restoreDefaults
      | .pause seconds =>
        .stop ⟨{ r.finish c with restore := some r.defaults, awaiting := true, last := now },
          r.defaults.directives ++ [.pause, .resumeAfter seconds]⟩ := rfl

/-- What can come of examining the active cue. -/
inductive Passage (r : Resolver) (s : Snapshot) : Onward → Prop where
  | hold (c : Cue) : r.activeCue? = some c → r.covers c s.time = true →
      Passage r s (.stop ⟨{ r with last := s.time }, r.correction s.levels c.levels⟩)
  | jump (c next : Cue) : r.activeCue? = some c → r.covers c s.time = false → c.mode = .jump →
      (r.finish c).successor? c = some next →
      Passage r s (.stop ((r.finish c).chain c next s.time))
  | pause (c : Cue) (seconds : Nat) : r.activeCue? = some c → r.covers c s.time = false →
      c.mode = .pause seconds →
      Passage r s (.stop ⟨{ r.finish c with
        restore := some r.defaults, awaiting := true, last := s.time },
        r.defaults.directives ++ [.pause, .resumeAfter seconds]⟩)
  | finish (c : Cue) : r.activeCue? = some c → r.covers c s.time = false →
      c.mode = .natural ∨ c.mode = .jump ∧ (r.finish c).successor? c = none →
      Passage r s (.idle (r.finish c).restoreDefaults)
  | lost (id : Uuid) : r.active = some id → r.activeCue? = none →
      Passage r s (.idle { r with active := none }.restoreDefaults)
  | rest : r.active = none → Passage r s (.idle ⟨r, []⟩)

theorem passage (r : Resolver) (s : Snapshot) : Passage r s (r.continueActive s) := by
  unfold continueActive
  split
  · rename_i ha
    exact .rest ha
  · rename_i id ha
    have hcue : r.activeCue? = r.find? id := by simp [activeCue?, ha]
    split
    · rename_i c hf
      have hc : r.activeCue? = some c := hcue.trans hf
      split
      · rename_i hcov
        exact .hold c hc hcov
      · rename_i hcov
        have hcov : r.covers c s.time = false := by simpa using hcov
        rw [expire_eq]
        split
        · rename_i hm
          exact .finish c hc hcov (.inl hm)
        · rename_i hm
          split
          · rename_i next hn
            exact .jump c next hc hcov hm hn
          · rename_i hn
            exact .finish c hc hcov (.inr ⟨hm, hn⟩)
        · rename_i seconds hm
          exact .pause c seconds hc hcov hm
    · rename_i hf
      exact .lost id ha (hcue.trans hf)

theorem continueActive_of_activeCue? {r : Resolver} {s : Snapshot} {c : Cue}
    (hc : r.activeCue? = some c) :
    r.continueActive s =
      if r.covers c s.time then .stop ⟨{ r with last := s.time }, r.correction s.levels c.levels⟩
      else r.expire c s.time := by
  have ha := (activeCue?_some hc).2
  have hf : r.find? c.id = some c := by simpa [activeCue?, ha] using hc
  simp only [continueActive, ha, hf]

@[simp] theorem chain_cues (r : Resolver) (c next : Cue) (now : Seconds) :
    (r.chain c next now).resolver.cues = r.cues := by
  unfold chain
  split <;> rfl

@[simp] theorem chain_tolerances (r : Resolver) (c next : Cue) (now : Seconds) :
    (r.chain c next now).resolver.tolerances = r.tolerances := by
  unfold chain
  split <;> rfl

@[simp] theorem chain_defaults (r : Resolver) (c next : Cue) (now : Seconds) :
    (r.chain c next now).resolver.defaults = r.defaults := by
  unfold chain
  split <;> rfl

@[simp] theorem chain_awaiting (r : Resolver) (c next : Cue) (now : Seconds) :
    (r.chain c next now).resolver.awaiting = r.awaiting := by
  unfold chain
  split <;> rfl

inductive Settled (r : Resolver) (now : Seconds) : Settling → Prop where
  | still : r.flight = none → Settled r now (.done r)
  | landed (f : Flight) : r.flight = some f → r.landed f now = true →
      Settled r now (.done { r with flight := none, last := now })
  | waiting (f : Flight) : r.flight = some f → r.landed f now = false →
      (now - f.origin).abs ≤ r.tolerances.seek → f.waited < r.tolerances.settleTicks →
      Settled r now (.waiting { r with flight := some { f with waited := f.waited + 1 } })
  | givenUp (f : Flight) : r.flight = some f → r.landed f now = false →
      ((now - f.origin).abs ≤ r.tolerances.seek → r.tolerances.settleTicks ≤ f.waited) →
      Settled r now (.done { r with flight := none })

theorem settled (r : Resolver) (now : Seconds) : Settled r now (r.settle now) := by
  unfold settle
  split
  · rename_i hf
    exact .still hf
  · rename_i f hf
    split
    · rename_i hl
      exact .landed f hf hl
    · rename_i hl
      have hl : r.landed f now = false := by simpa using hl
      split
      · rename_i hw
        simp only [Bool.and_eq_true, decide_eq_true_eq] at hw
        exact .waiting f hf hl hw.1 hw.2
      · rename_i hw
        simp only [Bool.and_eq_true, decide_eq_true_eq] at hw
        exact .givenUp f hf hl (fun hn => Nat.le_of_not_lt fun hlt => hw ⟨hn, hlt⟩)

theorem settle_done {r q : Resolver} {now : Seconds} (h : r.settle now = .done q) :
    ∃ last, q = { r with flight := none, last := last } := by
  have hs := r.settled now
  rw [h] at hs
  cases hs with
  | still hf =>
    refine ⟨r.last, ?_⟩
    rw [← hf]
  | landed f hf hl => exact ⟨now, rfl⟩
  | givenUp f hf hl hw => exact ⟨r.last, rfl⟩

theorem settle_flight {r q : Resolver} {now : Seconds} (h : r.settle now = .done q) :
    q.flight = none := by
  obtain ⟨last, rfl⟩ := settle_done h
  rfl

inductive Detected (r : Resolver) (now : Seconds) : Response → Prop where
  | restarted : r.restarted now = true → Detected r now r.clear
  | moved : r.restarted now = false → r.moved now = true → Detected r now (r.moveTo now)
  | still : r.restarted now = false → r.moved now = false → Detected r now ⟨r, []⟩

theorem detected (r : Resolver) (now : Seconds) : Detected r now (r.detect now) := by
  unfold detect
  split
  · rename_i hr
    exact .restarted hr
  · rename_i hr
    have hr : r.restarted now = false := by simpa using hr
    split
    · rename_i hm
      exact .moved hr hm
    · rename_i hm
      exact .still hr (by simpa using hm)

theorem detect_still {r : Resolver} {now : Seconds} (hr : r.restarted now = false)
    (hm : r.moved now = false) : r.detect now = ⟨r, []⟩ := by
  simp [detect, hr, hm]

inductive Left (r : Resolver) : Response → Prop where
  | restored : r.active ≠ none → Left r { r with active := none }.restoreDefaults
  | still : r.active = none → Left r ⟨r, []⟩

theorem left (r : Resolver) : Left r r.leave := by
  unfold leave
  split
  · rename_i ha
    exact .restored (Option.isSome_iff_ne_none.mp ha)
  · rename_i ha
    exact .still (by simpa using ha)

theorem leave_active (r : Resolver) : r.leave.resolver.active = none := by
  have hl := r.left
  generalize r.leave = a at hl ⊢
  cases hl with
  | restored => rfl
  | still ha => exact ha

theorem leave_flight (r : Resolver) : r.leave.resolver.flight = r.flight := by
  unfold leave
  split <;> rfl

theorem leave_cues (r : Resolver) : r.leave.resolver.cues = r.cues := by
  unfold leave
  split <;> rfl

theorem leave_defaults (r : Resolver) : r.leave.resolver.defaults = r.defaults := by
  unfold leave
  split <;> rfl

theorem leave_awaiting (r : Resolver) : r.leave.resolver.awaiting = r.awaiting := by
  unfold leave
  split <;> rfl

theorem detect_active {r : Resolver} {now : Seconds}
    (h : (r.detect now).resolver.active.isSome = true) :
    r.restarted now = false ∧ r.moved now = false := by
  have hd := r.detected now
  generalize r.detect now = a at hd h
  cases hd with
  | restarted => exact absurd h (by simp [clear, leave_active])
  | moved => exact absurd h (by simp [moveTo, leave_active])
  | still hr hm => exact ⟨hr, hm⟩

/-! ## The levels that are sent -/

theorem leave_levelsOnly (r : Resolver) : LevelsOnly r.leave.directives := by
  have hl := r.left
  generalize r.leave = a at hl ⊢
  cases hl with
  | restored => exact levelsOnly_directives r.defaults
  | still => exact levelsOnly_nil

theorem reset_levelsOnly (r : Resolver) : LevelsOnly r.reset.directives :=
  (r.leave_levelsOnly.append levelsOnly_nil).append levelsOnly_nil

theorem detect_levelsOnly (r : Resolver) (now : Seconds) :
    LevelsOnly (r.detect now).directives := by
  have hd := r.detected now
  generalize r.detect now = a at hd ⊢
  cases hd with
  | restarted => simpa [clear] using r.leave_levelsOnly
  | moved => simpa [moveTo] using r.leave_levelsOnly
  | still => exact levelsOnly_nil

theorem correction_subset (r : Resolver) (seen wanted : Levels) :
    r.correction seen wanted ⊆ wanted.directives := by
  intro d hd
  unfold correction at hd
  rcases List.mem_append.mp hd with h | h
  · split at h
    · rw [List.mem_singleton.mp h]
      exact List.mem_cons_self
    · cases h
  · split at h
    · exact List.mem_cons_of_mem _ h
    · cases h

theorem correction_levelsOnly (r : Resolver) (seen wanted : Levels) :
    LevelsOnly (r.correction seen wanted) :=
  fun d hd => levelsOnly_directives wanted d (correction_subset r seen wanted hd)

inductive DefaultsTracked (r : Resolver) (s : Snapshot) : Response → Prop where
  | restored (wanted : Levels) : r.restore = some wanted → r.correction s.levels wanted = [] →
      DefaultsTracked r s ⟨{ r with restore := none, defaults := s.levels }, []⟩
  | corrected (wanted : Levels) : r.restore = some wanted → r.correction s.levels wanted ≠ [] →
      DefaultsTracked r s ⟨r, r.correction s.levels wanted⟩
  | taken : r.restore = none → DefaultsTracked r s ⟨{ r with defaults := s.levels }, []⟩

theorem defaultsTracked (r : Resolver) (s : Snapshot) :
    DefaultsTracked r s (r.trackDefaults s) := by
  unfold trackDefaults
  split
  · rename_i wanted hw
    split
    · rename_i hcorr
      exact .restored wanted hw hcorr
    · rename_i hcorr
      exact .corrected wanted hw hcorr
  · rename_i hnone
    exact .taken hnone

theorem trackDefaults_levelsOnly (r : Resolver) (s : Snapshot) :
    LevelsOnly (r.trackDefaults s).directives := by
  have ht := r.defaultsTracked s
  generalize r.trackDefaults s = a at ht ⊢
  cases ht with
  | restored => exact levelsOnly_nil
  | corrected => exact correction_levelsOnly r _ _
  | taken => exact levelsOnly_nil

inductive Started (r : Resolver) (now : Seconds) : Response → Prop where
  | begun (c : Cue) : r.due? now = some c →
      Started r now ⟨{ r.retire (r.overtaken c now) with active := some c.id, restore := none },
        c.levels.directives⟩
  | still : r.due? now = none → Started r now ⟨r, []⟩

theorem started (r : Resolver) (now : Seconds) : Started r now (r.activate now) := by
  unfold activate
  split
  · rename_i c hc
    exact .begun c hc
  · rename_i hc
    exact .still hc

theorem activate_levelsOnly (r : Resolver) (now : Seconds) :
    LevelsOnly (r.activate now).directives := by
  have hs := r.started now
  generalize r.activate now = a at hs ⊢
  cases hs with
  | begun => exact levelsOnly_directives _
  | still => exact levelsOnly_nil

theorem idle_levelsOnly (quiet : Bool) (s : Snapshot) (r : Resolver) :
    LevelsOnly (r.idle quiet s).directives := by
  unfold idle
  simp only [Response.andThen_directives, List.append_nil]
  have hstart : ∀ q : Resolver,
      LevelsOnly (if q.awaiting = true then (⟨q, []⟩ : Response) else q.activate s.time).directives := by
    intro q
    split
    · exact levelsOnly_nil
    · exact activate_levelsOnly q s.time
  refine .append ?_ (hstart _)
  split
  · exact trackDefaults_levelsOnly r s
  · exact levelsOnly_nil

/-- A tick goes on without a cue only after leaving the active one, if there was one. -/
theorem continueActive_idle {r : Resolver} {s : Snapshot} {rest : Response}
    (h : r.continueActive s = .idle rest) :
    rest.resolver.active = none ∧ LevelsOnly rest.directives := by
  have hp := r.passage s
  rw [h] at hp
  cases hp with
  | finish => exact ⟨rfl, levelsOnly_directives _⟩
  | lost => exact ⟨rfl, levelsOnly_directives _⟩
  | rest ha => exact ⟨ha, levelsOnly_nil⟩

/-! ## The end of a tick without a cue -/

theorem due?_some {r : Resolver} {now : Seconds} {c : Cue} (h : r.due? now = some c) :
    c ∈ r.cues ∧ c.holds now = true ∧ c.id ∉ r.executed := by
  have hp := List.find?_some h
  simp only [Bool.and_eq_true, Bool.not_eq_true', List.contains_eq_mem,
    decide_eq_false_iff_not] at hp
  exact ⟨List.mem_of_find?_eq_some h, hp.1.1, hp.1.2⟩

theorem mem_overtaken {r : Resolver} {c : Cue} {now : Seconds} {id : Uuid} :
    id ∈ r.overtaken c now ↔ ∃ d ∈ r.cues, d.id = id ∧ d.index < c.index ∧ d.start < now := by
  simp only [overtaken, List.mem_map, List.mem_filter, Bool.and_eq_true, decide_eq_true_eq]
  constructor
  · rintro ⟨d, ⟨hd, hlt⟩, hid⟩
    exact ⟨d, hd, hid, hlt⟩
  · rintro ⟨d, hd, hid, hlt⟩
    exact ⟨d, ⟨hd, hlt⟩, hid⟩

theorem trackDefaults_resolver (r : Resolver) (s : Snapshot) : ∃ defaults restore,
    (r.trackDefaults s).resolver = { r with defaults := defaults, restore := restore } := by
  have ht := r.defaultsTracked s
  generalize r.trackDefaults s = a at ht ⊢
  cases ht with
  | restored => exact ⟨s.levels, none, rfl⟩
  | corrected => exact ⟨r.defaults, r.restore, rfl⟩
  | taken => exact ⟨s.levels, r.restore, rfl⟩

/-- Up to the levels, such a tick only activates a cue, unless a pause is going on. -/
theorem idle_resolver (quiet : Bool) (s : Snapshot) (r : Resolver) : ∃ defaults restore,
    (r.idle quiet s).resolver =
      { (if r.awaiting then { r with defaults := defaults, restore := restore }
          else ({ r with defaults := defaults, restore := restore } : Resolver).activate
            s.time |>.resolver) with last := s.time } := by
  have htrack : ∃ defaults restore,
      (if quiet = true then r.trackDefaults s else ⟨r, []⟩).resolver =
        { r with defaults := defaults, restore := restore } := by
    cases quiet with
    | true => exact r.trackDefaults_resolver s
    | false => exact ⟨r.defaults, r.restore, rfl⟩
  obtain ⟨defaults, restore, htrack⟩ := htrack
  refine ⟨defaults, restore, ?_⟩
  unfold idle
  simp only [Response.andThen_resolver, htrack]
  cases r.awaiting <;> rfl

theorem activate_flight (r : Resolver) (now : Seconds) :
    (r.activate now).resolver.flight = r.flight := by
  unfold activate
  split <;> rfl

theorem activate_cues (r : Resolver) (now : Seconds) :
    (r.activate now).resolver.cues = r.cues := by
  unfold activate
  split <;> rfl

theorem activate_defaults (r : Resolver) (now : Seconds) :
    (r.activate now).resolver.defaults = r.defaults := by
  unfold activate
  split <;> rfl

theorem activate_awaiting (r : Resolver) (now : Seconds) :
    (r.activate now).resolver.awaiting = r.awaiting := by
  unfold activate
  split <;> rfl

theorem idle_flight (quiet : Bool) (s : Snapshot) (r : Resolver) :
    (r.idle quiet s).resolver.flight = r.flight := by
  obtain ⟨defaults, restore, hidle⟩ := idle_resolver quiet s r
  rw [hidle]
  split
  · rfl
  · exact activate_flight _ s.time

/-! ## The whole tick -/

theorem evaluate_stop {r : Resolver} {s : Snapshot} {rest : Response}
    (h : (r.detect s.time).resolver.continueActive s = .stop rest) :
    r.evaluate s = ⟨rest.resolver, (r.detect s.time).directives ++ rest.directives⟩ := by
  simp [evaluate, h]

theorem evaluate_idle {r : Resolver} {s : Snapshot} {rest : Response}
    (h : (r.detect s.time).resolver.continueActive s = .idle rest) :
    r.evaluate s =
      Response.andThen ⟨rest.resolver, (r.detect s.time).directives ++ rest.directives⟩
        (idle ((r.detect s.time).directives ++ rest.directives).isEmpty s) := by
  simp [evaluate, h]

theorem evaluate_idle_levelsOnly {r : Resolver} {s : Snapshot} {rest : Response}
    (h : (r.detect s.time).resolver.continueActive s = .idle rest) :
    LevelsOnly (r.evaluate s).directives := by
  rw [evaluate_idle h]
  exact ((r.detect_levelsOnly s.time).append (continueActive_idle h).2).append
    (idle_levelsOnly _ s _)

theorem tick_ended {r : Resolver} {s : Snapshot} (h : s.state = .ended) :
    r.tick s = r.tickEnded s.time := by
  simp [tick, h]

theorem tick_waiting {r q : Resolver} {s : Snapshot} (h : s.state ≠ .ended)
    (hq : r.settle s.time = .waiting q) : r.tick s = ⟨q, []⟩ := by
  simp [tick, h, hq]

theorem tick_done {r q : Resolver} {s : Snapshot} (h : s.state ≠ .ended)
    (hq : r.settle s.time = .done q) : r.tick s = q.evaluate s := by
  simp [tick, h, hq]

/-- How a tick goes: the media is over, a seek is waited for, or what is seen is evaluated. -/
inductive Ticked (r : Resolver) (s : Snapshot) : Response → Prop where
  | renewed : s.state = .ended → (r.active.isSome || !r.executed.isEmpty) = true →
      Ticked r s r.reset
  | finished : s.state = .ended → (r.active.isSome || !r.executed.isEmpty) = false →
      Ticked r s ⟨{ r with last := s.time }, []⟩
  | waiting (f : Flight) : s.state ≠ .ended →
      r.settle s.time = .waiting { r with flight := some { f with waited := f.waited + 1 } } →
      r.flight = some f → r.landed f s.time = false → f.waited < r.tolerances.settleTicks →
      Ticked r s ⟨{ r with flight := some { f with waited := f.waited + 1 } }, []⟩
  | evaluated (q : Resolver) : s.state ≠ .ended → r.settle s.time = .done q →
      Ticked r s (q.evaluate s)

theorem ticked (r : Resolver) (s : Snapshot) : Ticked r s (r.tick s) := by
  by_cases hs : s.state = .ended
  · rw [tick_ended hs, tickEnded]
    split
    · rename_i hbegun
      exact .renewed hs hbegun
    · rename_i hbegun
      exact .finished hs (Bool.eq_false_iff.mpr hbegun)
  · cases hq : r.settle s.time with
    | waiting q =>
      have hset := r.settled s.time
      rw [hq] at hset
      rw [tick_waiting hs hq]
      cases hset with
      | waiting f hf hl hn hw => exact .waiting f hs hq hf hl hw
    | done q =>
      rw [tick_done hs hq]
      exact .evaluated q hs hq

def examined? (r : Resolver) (s : Snapshot) : Option Resolver :=
  if s.state = .ended then none
  else
    match r.settle s.time with
    | .waiting _ => none
    | .done q => some (q.detect s.time).resolver

/-- The active cue that a tick finds over, so that it runs `expire` on it. -/
def expiring? (r : Resolver) (s : Snapshot) : Option Cue :=
  (r.examined? s).bind fun q => q.activeCue?.filter fun c => !q.covers c s.time

theorem expiring?_eq_some_iff {r : Resolver} {s : Snapshot} {c : Cue} :
    r.expiring? s = some c ↔
      s.state ≠ .ended ∧ ∃ q, r.settle s.time = .done q ∧ q.restarted s.time = false ∧
        q.moved s.time = false ∧ q.activeCue? = some c ∧ q.covers c s.time = false := by
  unfold expiring? examined?
  constructor
  · intro h
    split at h
    · cases h
    · rename_i hs
      split at h
      · cases h
      · rename_i q hq
        obtain ⟨hc, hcov⟩ := Option.filter_eq_some_iff.mp h
        obtain ⟨_, ha⟩ := activeCue?_some hc
        obtain ⟨hr, hm⟩ := detect_active (by rw [ha]; rfl)
        rw [detect_still hr hm] at hc hcov
        exact ⟨hs, q, hq, hr, hm, hc, by simpa using hcov⟩
  · rintro ⟨hs, q, hq, hr, hm, hc, hcov⟩
    simp [hs, hq, detect_still hr hm, hc, hcov]

theorem expiring?_of_detect {r q : Resolver} {s : Snapshot} {c : Cue} (hs : s.state ≠ .ended)
    (hq : r.settle s.time = .done q) (hc : (q.detect s.time).resolver.activeCue? = some c)
    (hcov : (q.detect s.time).resolver.covers c s.time = false) :
    q.detect s.time = ⟨q, []⟩ ∧ r.expiring? s = some c := by
  obtain ⟨hr, hm⟩ := detect_active (by rw [(activeCue?_some hc).2]; rfl)
  have hstill := detect_still hr hm
  rw [hstill] at hc hcov
  exact ⟨hstill, expiring?_eq_some_iff.mpr ⟨hs, q, hq, hr, hm, hc, hcov⟩⟩

theorem expiring?_activeCue? {r : Resolver} {s : Snapshot} {c : Cue}
    (h : r.expiring? s = some c) : r.activeCue? = some c := by
  obtain ⟨_, q, hq, _, _, hc, _⟩ := expiring?_eq_some_iff.mp h
  obtain ⟨last, rfl⟩ := settle_done hq
  exact hc

def afterExpiry (s : Snapshot) : Onward → Response
  | .stop rest => rest
  | .idle rest => rest.andThen (idle rest.directives.isEmpty s)

theorem tick_expiring {r : Resolver} {s : Snapshot} {c : Cue} (h : r.expiring? s = some c) :
    ∃ last, r.tick s =
      afterExpiry s (({ r with flight := none, last := last } : Resolver).expire c s.time) := by
  obtain ⟨hs, q, hq, hr, hm, hc, hcov⟩ := expiring?_eq_some_iff.mp h
  obtain ⟨last, rfl⟩ := settle_done hq
  refine ⟨last, ?_⟩
  have hon := continueActive_of_activeCue? (s := s) hc
  rw [if_neg (by simp [hcov])] at hon
  rw [tick_done hs hq, evaluate, detect_still hr hm]
  change (match Resolver.continueActive s _ with | .stop rest => _ | .idle rest => _) = _
  rw [hon]
  cases Resolver.expire _ c s.time <;> rfl

/-- What a tick can send, and the state that goes with it when it sends more than levels. -/
inductive Sent (r : Resolver) (s : Snapshot) : Response → Prop where
  | levels (a : Response) : LevelsOnly a.directives → Sent r s a
  | jump (q : Resolver) (c next : Cue) : r.expiring? s = some c → r.settle s.time = .done q →
      c.mode = .jump → (q.finish c).successor? c = some next →
      Sent r s ((q.finish c).chain c next s.time)
  | pause (q : Resolver) (c : Cue) (seconds : Nat) : r.expiring? s = some c →
      r.settle s.time = .done q → c.mode = .pause seconds →
      Sent r s ⟨{ q.finish c with restore := some q.defaults, awaiting := true, last := s.time },
        q.defaults.directives ++ [.pause, .resumeAfter seconds]⟩

theorem tick_sends (r : Resolver) (s : Snapshot) : Sent r s (r.tick s) := by
  have ht := r.ticked s
  generalize r.tick s = a at ht ⊢
  cases ht with
  | renewed => exact .levels _ r.reset_levelsOnly
  | finished => exact .levels _ levelsOnly_nil
  | waiting => exact .levels _ levelsOnly_nil
  | evaluated q hs hq =>
    have hd := q.detect_levelsOnly s.time
    have hp := (q.detect s.time).resolver.passage s
    generalize ho : (q.detect s.time).resolver.continueActive s = o at hp
    cases hp with
    | hold c hc hcov =>
      rw [evaluate_stop ho]
      exact .levels _ (hd.append (correction_levelsOnly _ _ _))
    | jump c next hc hcov hm hn =>
      obtain ⟨hstill, he⟩ := expiring?_of_detect hs hq hc hcov
      rw [evaluate_stop ho, hstill]
      rw [hstill] at hn
      exact .jump q c next he hq hm hn
    | pause c seconds hc hcov hm =>
      obtain ⟨hstill, he⟩ := expiring?_of_detect hs hq hc hcov
      rw [evaluate_stop ho, hstill]
      exact .pause q c seconds he hq hm
    | finish => exact .levels _ (evaluate_idle_levelsOnly ho)
    | lost => exact .levels _ (evaluate_idle_levelsOnly ho)
    | rest => exact .levels _ (evaluate_idle_levelsOnly ho)

/-! ## The end of a pause -/

theorem resumeDue_resolver (r : Resolver) :
    r.resumeDue.resolver = { r with awaiting := false } := by
  unfold resumeDue
  split
  · rfl
  · rename_i h
    have h : r.awaiting = false := by simpa using h
    rw [← h]

theorem eq_play_of_resumeDue {r : Resolver} {d : Directive} (h : d ∈ r.resumeDue.directives) :
    d = .play := by
  unfold resumeDue at h
  split at h
  · exact List.mem_singleton.mp h
  · cases h

/-! ## What a tick keeps -/

/-- What the parts of an evaluation hand on from one to the next, the evaluation comes to. -/
theorem evaluate_keeps {P Q : Response → Prop} {r : Resolver} {s : Snapshot}
    (hexamine : match (r.detect s.time).resolver.continueActive s with
      | .stop rest => Q ⟨rest.resolver, (r.detect s.time).directives ++ rest.directives⟩
      | .idle rest => P ⟨rest.resolver, (r.detect s.time).directives ++ rest.directives⟩)
    (hidle : ∀ q ds, P ⟨q, ds⟩ → q.active = none → LevelsOnly ds →
      Q (Response.andThen ⟨q, ds⟩ (idle ds.isEmpty s))) : Q (r.evaluate s) := by
  cases ho : (r.detect s.time).resolver.continueActive s with
  | stop rest =>
    rw [ho] at hexamine
    rw [evaluate_stop ho]
    exact hexamine
  | idle rest =>
    rw [ho] at hexamine
    rw [evaluate_idle ho]
    obtain ⟨hactive, hlevels⟩ := continueActive_idle ho
    exact hidle _ _ hexamine hactive ((r.detect_levelsOnly s.time).append hlevels)

/-- The end of a tick without a cue looks at the levels only if nothing has been sent, and starts a
cue only if no pause is going on. -/
theorem idle_keeps {P Q : Response → Prop} {r : Resolver} {ds : List Directive} {s : Snapshot}
    (hquiet : ds = [] → P (r.trackDefaults s)) (hsent : ds ≠ [] → P ⟨r, ds⟩)
    (hwait : ∀ q es, P ⟨q, es⟩ → q.awaiting = true → Q ⟨{ q with last := s.time }, es⟩)
    (hstart : ∀ q es, P ⟨q, es⟩ → q.awaiting = false →
      Q ⟨{ (q.activate s.time).resolver with last := s.time },
        es ++ (q.activate s.time).directives⟩) :
    Q (Response.andThen ⟨r, ds⟩ (idle ds.isEmpty s)) := by
  have htrack : P (Response.andThen ⟨r, ds⟩
      fun r => if ds.isEmpty then r.trackDefaults s else ⟨r, []⟩) := by
    cases ds with
    | nil => simpa [Response.andThen] using hquiet rfl
    | cons d ds => simpa [Response.andThen] using hsent (List.cons_ne_nil d ds)
  unfold Resolver.idle
  simp only [Response.andThen, List.append_nil] at htrack ⊢
  rw [← List.append_assoc]
  generalize (if ds.isEmpty = true then r.trackDefaults s else (⟨r, []⟩ : Response)) = a at htrack ⊢
  cases hw : a.resolver.awaiting with
  | true => simpa using hwait _ _ htrack hw
  | false => simpa using hstart _ _ htrack hw

def Onward.resolver : Onward → Resolver
  | .stop rest => rest.resolver
  | .idle rest => rest.resolver

theorem evaluate_resolver_keeps {P : Resolver → Prop} {r : Resolver} {s : Snapshot}
    (hexamine : P ((r.detect s.time).resolver.continueActive s).resolver)
    (hidle : ∀ quiet q, P q → P (q.idle quiet s).resolver) : P (r.evaluate s).resolver := by
  refine evaluate_keeps (P := fun a => P a.resolver) (Q := fun a => P a.resolver) ?_
    fun q ds hq _ _ => hidle _ q hq
  generalize (r.detect s.time).resolver.continueActive s = o at hexamine ⊢
  cases o with
  | stop rest => exact hexamine
  | idle rest => exact hexamine

/-- What every part of a tick keeps, the tick keeps. -/
theorem tick_keeps {P : Resolver → Prop} {r : Resolver} {s : Snapshot}
    (hsettle : ∀ q flight last, P q → P { q with flight := flight, last := last })
    (hdetect : ∀ q, P q → P (q.detect s.time).resolver)
    (hexamine : ∀ q, P q → P (q.continueActive s).resolver)
    (hidle : ∀ quiet q, P q → P (q.idle quiet s).resolver)
    (hreset : P r → P r.reset.resolver) (h : P r) : P (r.tick s).resolver := by
  have ht := r.ticked s
  generalize r.tick s = a at ht ⊢
  cases ht with
  | renewed => exact hreset h
  | finished => exact hsettle r r.flight s.time h
  | waiting => exact hsettle r _ r.last h
  | evaluated q hs hq =>
    obtain ⟨last, rfl⟩ := settle_done hq
    exact evaluate_resolver_keeps (hexamine _ (hdetect _ (hsettle r none last h))) hidle

end Resolver

end PlaybackCues
