import PlaybackCues.Proofs.Resolver.Watching

set_option autoImplicit false

/-!
# When a jump is taken for a seek of the user

In a watched run a tick finds the player displaced in one case only: a jump led to the place where
the player already was, or to shortly before it, so that for ten ticks the player was never seen
nearer to the target than to the origin, and the last time still is the target when the player is
more than two seconds past it. Otherwise the cue that a jump led to stays active to its end.
-/
namespace PlaybackCues.Resolver

namespace Look

structure JumpsTo (j : Look) (b : Cue) : Prop where
  sent : .seek b.start .engine ∈ j.after.directives
  active : j.after.resolver.activeCue? = some b

def Nearer (x j : Look) (b : Cue) : Prop := (x.time - b.start).abs < (x.time - j.time).abs

instance (x j : Look) (b : Cue) : Decidable (x.Nearer j b) :=
  inferInstanceAs (Decidable ((x.time - b.start).abs < (x.time - j.time).abs))

end Look

/-- Ten ticks have waited in vain for a jump, whose target is now too far away. -/
def Unlanded (ls : List Look) (now : Seconds) : Prop :=
  ∃ ws j rest b, ls = ws ++ j :: rest ∧ j.JumpsTo b ∧ ws.length = 10 ∧
    (∀ x ∈ ws, ¬ x.Nearer j b) ∧ 2 < (now - b.start).abs

/-! ## One look -/

section Step

variable {r : Resolver} {now : Seconds} {s : Snapshot}

theorem settle_waiting {f : Flight} (hf : r.flight = some f) (hl : r.landed f now = false)
    (hn : (now - f.origin).abs ≤ r.tolerances.seek) (hw : f.waited < r.tolerances.settleTicks) :
    r.settle now = .waiting { r with flight := some { f with waited := f.waited + 1 } } := by
  simp [settle, hf, hl, hn, hw]

theorem displaced_of_lag {q : Resolver} {k : Nat} (hq : r.settle s.time = .done q)
    (hc : Coherent {} q) (hs : Strides k q.last s.time) :
    r.displaced s = true ↔ 2 < (s.time - q.last).abs := by
  have hnot : ¬ (2 : Seconds) < q.last - s.time :=
    Binary64.not_lt_sub hs.finite_left hs.finite_right (by decide +kernel) (by decide +kernel) hs.le
  have hrest : q.restarted s.time = false := by
    unfold restarted
    rw [hc.tolerances_eq, Bool.and_eq_false_iff]
    exact .inr (decide_eq_false hnot)
  have hmoved : q.moved s.time = true ↔ 2 < (s.time - q.last).abs := by
    unfold moved
    rw [hc.tolerances_eq, decide_eq_true_iff]
  unfold displaced
  rw [hq]
  change (q.restarted s.time || q.moved s.time) = true ↔ _
  rw [hrest, Bool.false_or, hmoved]

/-- The last time lags behind by more than is tolerated only while a jump is in flight. -/
theorem Synced.displaced_iff (h : Synced r now) (hn : Strides 1 now s.time) :
    r.displaced s = true ↔
      ∃ f, r.flight = some f ∧ f.waited = 10 ∧ 2 < (s.time - f.target).abs := by
  have hset := r.settled s.time
  have hcoh := h.coherent.settle s.time
  have hticks : r.tolerances.settleTicks = 10 := by rw [h.coherent.tolerances_eq]
  have hstill : ∀ {q : Resolver} {k : Nat}, r.settle s.time = .done q → Coherent {} q →
      Strides k q.last s.time → k ≤ 10 → ¬ r.displaced s = true := by
    intro q k hq hc hstr hk
    rw [displaced_of_lag hq hc hstr]
    exact Binary64.not_lt_of_le (hstr.distance_le hk)
  cases hq : r.settle s.time with
  | waiting q =>
    rw [hq] at hset
    cases hset with
    | waiting f hf hl hnear hw =>
      refine iff_of_false (by simp [displaced, hq]) ?_
      simp only [hf, Option.some.injEq, exists_eq_left']
      rintro ⟨hten, _⟩
      omega
  | done q =>
    rw [hq] at hset hcoh
    cases hset with
    | still hf =>
      refine iff_of_false (hstill hq hcoh.1 (by rw [h.still hf]; exact hn) (by decide)) ?_
      simp [hf]
    | landed f hf hl =>
      refine iff_of_false (hstill hq hcoh.1 (.refl hn.finite_right) (by decide)) ?_
      simp only [hf, Option.some.injEq, exists_eq_left']
      rintro ⟨_, hfar⟩
      have hnear := of_decide_eq_true (Bool.and_eq_true_iff.mp hl).1
      rw [h.coherent.tolerances_eq] at hnear
      exact Binary64.not_lt_of_le hnear hfar
    | givenUp f hf hl hw =>
      obtain ⟨hlast, _, hstr⟩ := h.flying f hf
      have hle := h.coherent.waited_le f hf
      have hall : Strides (f.waited + 1) ({ r with flight := none } : Resolver).last s.time := by
        change Strides (f.waited + 1) r.last s.time
        rw [hlast]
        exact hstr.add hn
      have hlag := displaced_of_lag hq hcoh.1 hall
      change r.displaced s = true ↔ 2 < (s.time - r.last).abs at hlag
      rw [hlast] at hlag
      simp only [hf, Option.some.injEq, exists_eq_left']
      by_cases hten : f.waited = 10
      · rw [hlag]
        exact ⟨fun hfar => ⟨hten, hfar⟩, fun hfar => hfar.2⟩
      · -- a flight is given up early only when it is still near its target
        exact iff_of_false (hstill hq hcoh.1 hall (by omega)) fun hfar => hten hfar.1

theorem landed_iff {f : Flight} (h : Coherent {} r) (hs : Strides (f.waited + 1) f.target s.time)
    (hw : f.waited < 10) (ho : f.origin.isFinite = true) :
    r.landed f s.time = true ↔ (s.time - f.target).abs < (s.time - f.origin).abs := by
  have hnear : (s.time - f.target).abs ≤ 2 := hs.distance_le hw
  have hother := Binary64.not_lt_distance (a := s.time) (b := f.target) (c := s.time)
    (d := f.origin) hs.finite_right hs.finite_left hs.finite_right ho
  unfold landed
  rw [h.tolerances_eq]
  change (decide ((s.time - f.target).abs ≤ 2) && (!decide ((s.time - f.origin).abs ≤ 2) ||
    decide ((s.time - f.target).abs < (s.time - f.origin).abs))) = true ↔ _
  rw [decide_eq_true hnear, Bool.true_and, Bool.or_eq_true, decide_eq_true_iff]
  refine ⟨fun hl => ?_, .inr⟩
  rcases hl with hfar | hlt
  · -- far from the origin and near to the target
    refine Decidable.byContradiction fun hlt => ?_
    have hfar : ¬ (s.time - f.origin).abs ≤ 2 := by simpa using hfar
    exact hfar (Binary64.le_trans (hother.mp hlt) hnear)
  · exact hlt

/-- A tick that sees the player no nearer to the target of a jump than to its origin waits on, up to
the tenth time. -/
theorem Synced.tick_waits (h : Synced r now) (hn : Strides 1 now s.time) (hs : s.state ≠ .ended)
    {f : Flight} (hf : r.flight = some f) (hw : f.waited < 10)
    (hfar : ¬ (s.time - f.target).abs < (s.time - f.origin).abs) :
    r.tick s = ⟨{ r with flight := some { f with waited := f.waited + 1 } }, []⟩ := by
  obtain ⟨_, horigin, hstr⟩ := h.flying f hf
  have hall : Strides (f.waited + 1) f.target s.time := hstr.add hn
  have hland : r.landed f s.time = false :=
    Bool.eq_false_iff.mpr fun hl => hfar ((landed_iff h.coherent hall hw horigin).mp hl)
  have hnear : (s.time - f.origin).abs ≤ 2 :=
    Binary64.le_trans ((Binary64.not_lt_distance hall.finite_right hall.finite_left
      hall.finite_right horigin).mp hfar) (hall.distance_le hw)
  refine tick_waiting hs (settle_waiting hf hland ?_ ?_)
  · rw [h.coherent.tolerances_eq]
    exact hnear
  · rw [h.coherent.tolerances_eq]
    exact hw

end Step

/-! ## Flights along a run -/

/-- The flight began with a jump, and no look since saw the player nearer to the target. -/
def Trails (ls : List Look) (f : Flight) : Prop :=
  ∃ ws j rest b, ls = ws ++ j :: rest ∧ j.JumpsTo b ∧ ws.length = f.waited ∧
    f.origin = j.time ∧ f.target = b.start ∧ ∀ x ∈ ws, ¬ x.Nearer j b

/-- Cues with one id have one index, so the successor is the first cue with its id. -/
theorem find?_successor {t : Tolerances} {r : Resolver} (h : Coherent t r) {c next : Cue}
    (hn : r.successor? c = some next) : r.find? next.id = some next := by
  have hmem : next ∈ r.cues := List.mem_of_find?_eq_some hn
  obtain ⟨hp, xs, ys, hcues, hxs⟩ := List.find?_eq_some_iff_append.mp hn
  refine List.find?_eq_some_iff_append.mpr ⟨by simp, xs, ys, hcues, fun d hd => ?_⟩
  have hd' : d ∈ r.cues := by
    rw [hcues]
    exact List.mem_append_left _ hd
  have hearlier := hxs d hd
  by_cases hid : d.id = next.id
  · rw [(h.built.told d hd' next hmem hid).1, hid, hp] at hearlier
    cases hearlier
  · simp [hid]

theorem chain_activeCue? (r : Resolver) (c next : Cue) (now : Seconds) :
    (r.chain c next now).resolver.activeCue? = r.find? next.id := by
  unfold chain
  split <;> rfl

theorem jumpsTo_chain {t : Tolerances} {l : Look} {q : Resolver} {c next : Cue}
    (h : Coherent t l.before) (hq : l.before.settle l.time = .done q)
    (he : l.before.expiring? l.seen = some c) (hn : (q.finish c).successor? c = some next)
    (ha : l.after = (q.finish c).chain c next l.time) : l.JumpsTo next where
  sent := by
    rw [ha]
    exact List.mem_append_right _ (List.mem_singleton_self _)
  active := by
    have hcoh := h.settle l.time
    rw [hq] at hcoh
    have hc : q.activeCue? = some c := by
      have hbefore := expiring?_activeCue? he
      obtain ⟨last, rfl⟩ := settle_done hq
      exact hbefore
    rw [ha, chain_activeCue?]
    exact find?_successor (hcoh.1.finish hcoh.2 hc) hn

theorem trails_tick {l : Look} {ls : List Look} {now : Seconds} (h : Synced l.before now)
    (hs : l.seen.state ≠ .ended) (hn : Strides 1 now l.time)
    (hls : ∀ f, l.before.flight = some f → Trails ls f) {f : Flight}
    (hf : l.after.resolver.flight = some f) : Trails (l :: ls) f := by
  have ha : Arrival l.before l.seen l.after := tick_arrival _ hs
  generalize hb : l.after = a at ha hf
  cases ha with
  | waiting g hg hl hw hd =>
    cases hf
    obtain ⟨ws, j, rest, b, rfl, hj, hlen, ho, ht, hnot⟩ := hls g hg
    obtain ⟨_, horigin, hstr⟩ := h.flying g hg
    have hten : g.waited < 10 := by rwa [h.coherent.tolerances_eq] at hw
    have hland := landed_iff h.coherent (hstr.add hn) hten horigin
    rw [hl, ho, ht] at hland
    refine ⟨l :: ws, j, rest, b, rfl, hj, congrArg (· + 1) hlen, ho, ht, ?_⟩
    intro x hx
    rcases List.mem_cons.mp hx with rfl | hx
    · exact fun hnear => Bool.noConfusion (hland.mpr hnear)
    · exact hnot x hx
  | jump q c next hq he hnext =>
    cases hf
    exact ⟨[], l, ls, next, rfl, jumpsTo_chain h.coherent hq he hnext hb, rfl, rfl, rfl, by simp⟩
  | rest a hlast hnone hd =>
    rw [hnone] at hf
    cases hf

section Watching

variable {cues : List Cue} {l : Look} {ls : List Look}

theorem Watched.trails (h : Watched cues (l :: ls)) {f : Flight}
    (hf : l.before.flight = some f) : Trails ls f := by
  induction ls generalizing l f with
  | nil =>
    cases h with
    | first l hb hl =>
      rw [hl, opening, load_kept rfl] at hf
      cases hf
  | cons k ls ih =>
    obtain ⟨hk, _, _, _, hflight, _⟩ := h.step
    obtain ⟨hs, now, hsync, hn⟩ := hk.met
    rw [hflight] at hf
    exact trails_tick hsync hs hn (fun g hg => ih hk hg) hf

theorem Watched.step_append {ws rest : List Look} {x j : Look}
    (h : Watched cues (x :: (ws ++ j :: rest))) :
    ∃ k ks, ws ++ j :: rest = k :: ks ∧ Watched cues (k :: ks) ∧ x.seen.state ≠ .ended ∧
      Strides 1 k.landing x.time ∧ Synced x.before k.landing ∧
      x.before.flight = k.after.resolver.flight ∧
      x.before.activeCue? = k.after.resolver.activeCue? := by
  obtain ⟨k, ks, hks⟩ : ∃ k ks, ws ++ j :: rest = k :: ks := by
    cases ws <;> exact ⟨_, _, rfl⟩
  rw [hks] at h
  exact ⟨k, ks, hks, h.step⟩

theorem Watched.flight_of_jump {b : Cue} (h : Watched cues (l :: ls)) (hj : l.JumpsTo b) :
    l.after.resolver.flight = some ⟨l.time, b.start, 0⟩ := by
  obtain ⟨hs, now, hsync, hn⟩ := h.met
  have ha : Arrival l.before l.seen l.after := tick_arrival _ hs
  have hsent := hj.sent
  generalize hb : l.after = a at ha hsent
  cases ha with
  | waiting g hg hl hw hd => cases hsent
  | jump q c next hq he hnext =>
    have hnext := (jumpsTo_chain hsync.coherent hq he hnext hb).active
    rw [hj.active] at hnext
    cases hnext
    rfl
  | rest a hlast hnone hd => cases hd _ hsent

/-- A jump that no look sees nearer to its target stays in flight for ten looks. -/
theorem Watched.flight_of_unlanded {ws rest : List Look} {j : Look} {b : Cue}
    (h : Watched cues (l :: ls)) (hls : l :: ls = ws ++ j :: rest) (hj : j.JumpsTo b)
    (hlen : ws.length ≤ 10) (hnot : ∀ x ∈ ws, ¬ x.Nearer j b) :
    l.after.resolver.flight = some ⟨j.time, b.start, ws.length⟩ := by
  induction ws generalizing l ls with
  | nil =>
    cases hls
    exact h.flight_of_jump hj
  | cons x ws ih =>
    cases hls
    obtain ⟨k, ks, hks, hk, hs, hn, hsync, hflight, _⟩ := h.step_append
    have hw : ws.length < 10 := hlen
    have hprev := ih hk hks.symm (Nat.le_of_lt hw) fun y hy => hnot y (List.mem_cons_of_mem x hy)
    rw [← hflight] at hprev
    have htick : x.after = _ := hsync.tick_waits hn hs hprev hw (hnot x List.mem_cons_self)
    rw [htick]
    rfl

theorem Watched.displaced_iff (h : Watched cues (l :: ls)) :
    l.displaced = true ↔ Unlanded ls l.time := by
  obtain ⟨hs, now, hsync, hn⟩ := h.met
  refine (hsync.displaced_iff hn).trans ⟨?_, ?_⟩
  · rintro ⟨f, hf, hten, hfar⟩
    obtain ⟨ws, j, rest, b, hls, hj, hlen, _, ht, hnot⟩ := h.trails hf
    rw [ht] at hfar
    exact ⟨ws, j, rest, b, hls, hj, hlen.trans hten, hnot, hfar⟩
  · rintro ⟨ws, j, rest, b, hls, hj, hlen, hnot, hfar⟩
    cases ls with
    | nil => cases ws <;> cases hls
    | cons k ls =>
      obtain ⟨hk, _, _, _, hflight, _⟩ := h.step
      have hf := hk.flight_of_unlanded hls hj (Nat.le_of_eq hlen) hnot
      rw [← hflight, hlen] at hf
      exact ⟨_, hf, rfl, hfar⟩

theorem tick_holds {r : Resolver} {s : Snapshot} {b : Cue} (hs : s.state ≠ .ended)
    (hb : r.activeCue? = some b) (hd : r.displaced s = false) (hcov : r.covers b s.time = true) :
    (r.tick s).resolver.activeCue? = some b ∧ (s.obeyAll (r.tick s).directives).time = s.time := by
  have hset := r.settled s.time
  cases hq : r.settle s.time with
  | waiting q =>
    rw [hq] at hset
    rw [tick_waiting hs hq]
    cases hset with
    | waiting f hf hl hn hw => exact ⟨hb, rfl⟩
  | done q =>
    have hd : (q.restarted s.time || q.moved s.time) = false := by
      simpa [displaced, hq] using hd
    obtain ⟨hr, hm⟩ := Bool.or_eq_false_iff.mp hd
    have hq' : q.activeCue? = some b ∧ q.covers b s.time = true := by
      obtain ⟨last, rfl⟩ := settle_done hq
      exact ⟨hb, hcov⟩
    have hon := continueActive_of_activeCue? (s := s) hq'.1
    rw [if_pos hq'.2] at hon
    rw [tick_done hs hq, evaluate_stop (by rw [detect_still hr hm]; exact hon), detect_still hr hm]
    exact ⟨hq'.1, obeyAll_time (correction_levelsOnly q _ _).moves⟩

theorem evaluate_prefix (r : Resolver) (s : Snapshot) :
    (r.detect s.time).directives <+: (r.evaluate s).directives := by
  cases ho : (r.detect s.time).resolver.continueActive s with
  | stop rest =>
    rw [evaluate_stop ho]
    exact List.prefix_append _ _
  | idle rest =>
    rw [evaluate_idle ho, Response.andThen_directives, List.append_assoc]
    exact List.prefix_append _ _

theorem tick_displaced {r : Resolver} {s : Snapshot} (hs : s.state ≠ .ended)
    (ha : r.active.isSome = true) (hd : r.displaced s = true) :
    r.defaults.directives <+: (r.tick s).directives := by
  cases hq : r.settle s.time with
  | waiting q => simp [displaced, hq] at hd
  | done q =>
    have hd : (q.restarted s.time || q.moved s.time) = true := by simpa [displaced, hq] using hd
    obtain ⟨last, hlast⟩ := settle_done hq
    have hleave : q.leave.directives = r.defaults.directives := by
      rw [hlast, leave, if_pos ha]
      rfl
    have hdetect : (q.detect s.time).directives = q.leave.directives := by
      have hfound := q.detected s.time
      generalize q.detect s.time = a at hfound ⊢
      cases hfound with
      | restarted => simp [clear]
      | moved => simp [moveTo]
      | still hr hm => simp [hr, hm] at hd
    rw [tick_done hs hq, ← hleave, ← hdetect]
    exact evaluate_prefix q s

theorem Watched.holds_after_jump {ws rest : List Look} {j : Look} {b : Cue}
    (h : Watched cues (l :: ls)) (hls : l :: ls = ws ++ j :: rest) (hj : j.JumpsTo b)
    (hd : ∀ x ∈ ws, x.displaced = false) (hstop : ∀ x ∈ ws, x.time ≤ b.stop) :
    (∀ x ∈ ws, x.after.resolver.activeCue? = some b) ∧
      l.after.resolver.activeCue? = some b ∧ b.start ≤ l.landing := by
  induction ws generalizing l ls with
  | nil =>
    have hf := h.flight_of_unlanded hls hj (Nat.zero_le 10) (by simp)
    cases hls
    exact ⟨by simp, hj.active, (h.synced.flying _ hf).2.2.le⟩
  | cons x ws ih =>
    cases hls
    obtain ⟨k, ks, hks, hk, hs, hn, hsync, _, hactive⟩ := h.step_append
    obtain ⟨hall, hb, hle⟩ := ih hk hks.symm (fun y hy => hd y (List.mem_cons_of_mem x hy))
      (fun y hy => hstop y (List.mem_cons_of_mem x hy))
    rw [← hactive] at hb
    have hafter : b.start ≤ x.time := Binary64.le_trans hle hn.le
    have hfin := (hsync.coherent.built.window (activeCue?_some hb).1).1
    have hcov : x.before.covers b x.time = true := by
      unfold covers
      rw [Bool.and_eq_true, decide_eq_true_iff, decide_eq_true_iff, hsync.coherent.tolerances_eq]
      exact ⟨hstop x List.mem_cons_self,
        Binary64.sub_le hfin (by decide +kernel) (by decide +kernel) hafter⟩
    obtain ⟨hheld, hland⟩ := tick_holds hs hb (hd x List.mem_cons_self) hcov
    refine ⟨?_, hheld, ?_⟩
    · intro y hy
      rcases List.mem_cons.mp hy with rfl | hy
      · exact hheld
      · exact hall y hy
    · change b.start ≤ (x.seen.obeyAll x.after.directives).time
      rw [show (x.seen.obeyAll x.after.directives).time = x.time from hland]
      exact hafter

theorem Watched.restores (h : Watched cues (l :: ls)) (hd : l.displaced = true) :
    l.before.defaults.directives <+: l.after.directives := by
  obtain ⟨hs, now, hsync, hn⟩ := h.met
  obtain ⟨f, hf, _⟩ := (hsync.displaced_iff hn).mp hd
  have hactive : l.before.active.isSome = true := by
    cases ha : l.before.active with
    | none => simp [hsync.coherent.flight_active ha] at hf
    | some id => rfl
  exact tick_displaced hs hactive hd

/-- A look of a watched run is taken for a seek of the user, or for a restart, exactly when ten
looks have waited in vain for a jump whose target is by then too far away; the defaults are
restored then. As long as this does not happen, the cue that a jump led to is active at every look
up to its end. -/
theorem displaced_iff_unlanded (h : Watched cues (l :: ls)) :
    (l.displaced = true ↔ Unlanded ls l.time) ∧
    (l.displaced = true → l.before.defaults.directives <+: l.after.directives) ∧
    ∀ ws j rest b, l :: ls = ws ++ j :: rest → j.JumpsTo b → (∀ x ∈ ws, x.displaced = false) →
      (∀ x ∈ ws, x.time ≤ b.stop) → ∀ x ∈ ws, x.after.resolver.activeCue? = some b :=
  ⟨h.displaced_iff, h.restores, fun _ _ _ _ hls hj hd hstop =>
    (h.holds_after_jump hls hj hd hstop).1⟩

end Watching

def shortJump : CueSpec := ⟨0, 0.187, 50, 1, .jump⟩

def longAfter : CueSpec := ⟨0.187, 30, 60, 1, .natural⟩

def shortCues : List Cue := [shortJump.rounded.place 0 0, longAfter.rounded.place 1 0]

def shortStart : Look := ⟨{ tolerances := {}, cues := shortCues }, .fresh⟩

def shortLooks : List Look :=
  onward [shortStart.onward 0.1875, shortStart]
    [0.375, 0.5625, 0.75, 0.9375, 1.125, 1.3125, 1.5, 1.6875, 1.875, 2.0625, 2.25]

theorem shortLooks_ne_nil : shortLooks ≠ [] := by decide +kernel

theorem shortLooks_watched : Watched shortCues shortLooks := by
  refine watched_of_paced (built_pair (by decide +kernel) (by decide +kernel) (by decide +kernel))
    ?_ (by decide +kernel)
  rw [opening, load_new {} (by decide)]
  decide +kernel

/-- Well before the end of the second cue its jump is taken for a seek of the user. -/
theorem shortLooks_displaced :
    ∃ l ls, shortLooks = l :: ls ∧ Watched shortCues (l :: ls) ∧
      l.time ≤ (longAfter.rounded.place 1 0).stop ∧ l.displaced = true ∧
      l.before.defaults.directives <+: l.after.directives := by
  have hw := shortLooks_watched
  rw [← List.cons_head_tail shortLooks_ne_nil] at hw
  have hiff := displaced_iff_unlanded hw
  let last := shortLooks.head shortLooks_ne_nil
  let jump := shortStart.onward 0.1875
  let target := longAfter.rounded.place 1 0
  have hevaluated : shortLooks.tail = shortLooks.tail.take 10 ++ jump :: [shortStart] ∧
      .seek target.start .engine ∈ jump.after.directives ∧
      jump.after.resolver.activeCue? = some target ∧ (shortLooks.tail.take 10).length = 10 ∧
      (∀ x ∈ shortLooks.tail.take 10, ¬ x.Nearer jump target) ∧
      2 < (last.time - target.start).abs ∧ last.time ≤ target.stop := by decide +kernel
  obtain ⟨hlooks, hsent, hactive, hten, hnot, hfar, hbefore⟩ := hevaluated
  have hd : last.displaced = true :=
    hiff.1.mpr ⟨_, jump, _, target, hlooks, ⟨hsent, hactive⟩, hten, hnot, hfar⟩
  exact ⟨_, _, (List.cons_head_tail shortLooks_ne_nil).symm, hw, hbefore, hd, hiff.2.1 hd⟩

end PlaybackCues.Resolver
