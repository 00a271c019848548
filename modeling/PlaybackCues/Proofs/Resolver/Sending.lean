import PlaybackCues.Proofs.Resolver.Expiry

set_option autoImplicit false

/-!
# What a tick sends apart from levels

A tick pauses or jumps exactly when it finds a cue over whose mode is to pause or to jump, and it
never tells the player to play.
-/
namespace PlaybackCues.Resolver

variable {r : Resolver} {s : Snapshot}

theorem endDirectives_sent_first {c : Cue} (h : r.expiring? s = some c) :
    r.endDirectives c <+: (r.tick s).directives := by
  obtain ⟨last, ht⟩ := tick_expiring h
  rw [ht]
  exact endDirectives_expire { r with flight := none, last := last } c s

theorem endDirectives_pause {c : Cue} {seconds : Nat} (h : c.mode = .pause seconds) :
    r.endDirectives c = r.defaults.directives ++ [.pause, .resumeAfter seconds] := by
  simp [endDirectives, h]

theorem endDirectives_jump {c next : Cue} (hm : c.mode = .jump)
    (hn : (r.finish c).successor? c = some next) :
    r.endDirectives c = next.levels.directives ++ [.seek next.start .engine] := by
  simp [endDirectives, hm, hn]

/-- A directive that is no level is sent by a tick for the end of a cue only. -/
theorem exists_expiring_of_mem {d : Directive} (hd : d ∈ (r.tick s).directives)
    (hlevel : d.isLevel = false) :
    ∃ c, r.expiring? s = some c ∧
      ((∃ seconds, c.mode = .pause seconds ∧ (d = .pause ∨ d = .resumeAfter seconds)) ∨
        c.mode = .jump ∧ ∃ next, (r.finish c).successor? c = some next ∧
          d = .seek next.start .engine) := by
  have hnot : ∀ {ds : List Directive}, LevelsOnly ds → d ∉ ds := by
    intro ds hds hmem
    rw [hds d hmem] at hlevel
    cases hlevel
  have hsent := r.tick_sends s
  generalize r.tick s = a at hd hsent
  cases hsent with
  | levels a h => exact absurd hd (hnot h)
  | jump q c next he hq hm hn =>
    obtain ⟨last, rfl⟩ := settle_done hq
    refine ⟨c, he, .inr ⟨hm, next, hn, ?_⟩⟩
    rcases List.mem_append.mp hd with hd | hd
    · exact absurd hd (hnot (levelsOnly_directives _))
    · exact List.mem_singleton.mp hd
  | pause q c seconds he hq hm =>
    refine ⟨c, he, .inl ⟨seconds, hm, ?_⟩⟩
    rcases List.mem_append.mp hd with hd | hd
    · exact absurd hd (hnot (levelsOnly_directives _))
    · simpa using hd

theorem tick_pauses_iff : .pause ∈ (r.tick s).directives ↔
    ∃ c seconds, r.expiring? s = some c ∧ c.mode = .pause seconds := by
  constructor
  · intro hd
    obtain ⟨c, he, ⟨seconds, hm, _⟩ | ⟨_, next, _, hd⟩⟩ := exists_expiring_of_mem hd rfl
    · exact ⟨c, seconds, he, hm⟩
    · cases hd
  · rintro ⟨c, seconds, he, hm⟩
    refine (endDirectives_sent_first he).subset ?_
    simp [endDirectives_pause hm]

theorem tick_resumes_iff {seconds : Nat} : .resumeAfter seconds ∈ (r.tick s).directives ↔
    ∃ c, r.expiring? s = some c ∧ c.mode = .pause seconds := by
  constructor
  · intro hd
    obtain ⟨c, he, ⟨n, hm, hd | hd⟩ | ⟨_, next, _, hd⟩⟩ := exists_expiring_of_mem hd rfl
    · cases hd
    · cases hd
      exact ⟨c, he, hm⟩
    · cases hd
  · rintro ⟨c, he, hm⟩
    refine (endDirectives_sent_first he).subset ?_
    simp [endDirectives_pause hm]

theorem tick_jumps_iff {target : Seconds} : .seek target .engine ∈ (r.tick s).directives ↔
    ∃ c next, r.expiring? s = some c ∧ c.mode = .jump ∧
      (r.finish c).successor? c = some next ∧ next.start = target := by
  constructor
  · intro hd
    obtain ⟨c, he, ⟨n, _, hd | hd⟩ | ⟨hm, next, hn, hd⟩⟩ := exists_expiring_of_mem hd rfl
    · cases hd
    · cases hd
    · cases hd
      exact ⟨c, next, he, hm, hn, rfl⟩
  · rintro ⟨c, next, he, hm, hn, rfl⟩
    refine (endDirectives_sent_first he).subset ?_
    simp [endDirectives_jump hm hn]

theorem tick_play_notMem (r : Resolver) (s : Snapshot) : .play ∉ (r.tick s).directives := by
  intro hd
  obtain ⟨c, _, ⟨n, _, hd | hd⟩ | ⟨_, next, _, hd⟩⟩ := exists_expiring_of_mem hd rfl <;> cases hd

/-- A tick that pauses has left the cue, and waits from then on. -/
theorem tick_of_pauses (h : .pause ∈ (r.tick s).directives) :
    (r.tick s).resolver.active = none ∧ (r.tick s).resolver.awaiting = true ∧
      (r.tick s).resolver.flight = none ∧ (r.tick s).resolver.last = s.time := by
  obtain ⟨c, seconds, he, hm⟩ := tick_pauses_iff.mp h
  obtain ⟨last, ht⟩ := tick_expiring he
  rw [ht, expire_eq, hm]
  exact ⟨rfl, rfl, rfl, rfl⟩

/-- A tick that jumps has its seek in flight. -/
theorem tick_of_jumps {target : Seconds} (h : .seek target .engine ∈ (r.tick s).directives) :
    s.state ≠ .ended ∧ (r.tick s).resolver.flight = some ⟨s.time, target, 0⟩ ∧
      (r.tick s).resolver.tolerances = r.tolerances := by
  obtain ⟨c, next, he, hm, hn, rfl⟩ := tick_jumps_iff.mp h
  obtain ⟨last, ht⟩ := tick_expiring he
  have hs := (expiring?_eq_some_iff.mp he).1
  generalize hq : ({ r with flight := none, last := last } : Resolver) = q at ht
  have hn' : (q.finish c).successor? c = some next := by
    subst hq
    exact hn
  rw [ht, expire_eq, hm]
  simp only [hn']
  refine ⟨hs, rfl, ?_⟩
  subst hq
  exact chain_tolerances _ c next s.time

end PlaybackCues.Resolver
