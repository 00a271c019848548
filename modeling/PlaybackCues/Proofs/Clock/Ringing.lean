import PlaybackCues.Proofs.Clock.Rearming

set_option autoImplicit false

/-!
# Which armings ring

The acts of a run are counted from zero. An arming rings if the desk was not cancelled before it and
some later act runs what is due at its deadline, with nothing between the two that disturbs the
alarm. One that was called off races if its time is up when it is polled next: it had no chance to
ring before, and now its choice decides. What is posted are the armings that ring and the races that
are won, each once, with their deadlines; nothing else is.
-/
namespace PlaybackCues

variable {ε : Type} {acts : List (AlarmAct ε)} {a : AlarmAct ε} {p q : Arming ε} {i j k due : Nat}

namespace AlarmState

variable {s : AlarmState ε} {choice : Nat → Bool}

/-! ## What an act changes -/

def fresh? (s : AlarmState ε) : AlarmAct ε → Option (Arming ε)
  | .arm delay e => some ⟨s.armings, s.now + delay, e⟩
  | _ => none

theorem act_of_disturbs (s : AlarmState ε) (choice : Nat → Bool) (h : a.disturbs = true) :
    (s.act choice a).posted = s.posted ∧
    (s.act choice a).off =
      s.off ++ s.pending.toList ++ (if s.cancelled then s.fresh? a else none).toList ∧
    (s.act choice a).pending = if s.cancelled then none else s.fresh? a := by
  cases a with
  | arm delay e => cases hc : s.cancelled <;> simp [act, arm, callOff, fresh?, hc]
  | disarm => simp [act, callOff, fresh?]
  | cancelAll => simp [act, callOff, fresh?]
  | settle => cases h
  | advance ms => cases h
  | approach ms => cases h

theorem act_of_runs (h : a.disturbs = false) : s.act choice a = (s.poll choice).elapse a := by
  cases a with
  | arm delay e => cases h
  | disarm => cases h
  | cancelAll => cases h
  | settle => rfl
  | advance ms => rfl
  | approach ms => rfl

theorem elapse_posted (s : AlarmState ε) (a : AlarmAct ε) : (s.elapse a).posted =
    s.posted ++ (s.pending.filter fun p => a.reaches s.now p.due).toList.map Arming.note := by
  change (s.ring _).posted = _
  cases hp : s.pending with
  | none => simp [ring_of_idle hp]
  | some p =>
    rw [ring_of_pending hp]
    cases hr : a.reaches s.now p.due <;> simp [Option.filter, hr]

theorem elapse_pending (s : AlarmState ε) (a : AlarmAct ε) :
    (s.elapse a).pending = s.pending.filter fun p => !a.reaches s.now p.due := by
  change (s.ring _).pending = _
  cases hp : s.pending with
  | none => rw [ring_of_idle hp, hp, Option.filter_none]
  | some p =>
    rw [ring_of_pending hp]
    cases hr : a.reaches s.now p.due <;> simp [Option.filter, hr, hp]

theorem act_now (s : AlarmState ε) (a : AlarmAct ε) : (s.act choice a).now = s.now + a.span := by
  cases a with
  | arm delay e =>
    simp only [act, arm]
    split <;> rfl
  | disarm => rfl
  | cancelAll => rfl
  | settle => rfl
  | advance ms => rfl
  | approach ms => rfl

theorem act_armings (s : AlarmState ε) (a : AlarmAct ε) :
    (s.act choice a).armings = s.armings + if a.isArm then 1 else 0 := by
  cases a with
  | arm delay e =>
    simp only [act, arm]
    split <;> rfl
  | disarm => rfl
  | cancelAll => rfl
  | settle => exact ((s.poll choice).ring_keeps _).2.1
  | advance ms => exact ((s.poll choice).ring_keeps _).2.1
  | approach ms => exact ((s.poll choice).ring_keeps _).2.1

theorem act_cancelled :
    (s.act choice a).cancelled = true ↔ s.cancelled = true ∨ a = .cancelAll := by
  cases a with
  | arm delay e => cases hc : s.cancelled <;> simp [act, arm, callOff, hc]
  | disarm => simp [act, callOff]
  | cancelAll => simp [act]
  | settle => simp [act, elapse, ring_keeps, poll]
  | advance ms => simp [act, elapse, ring_keeps, poll]
  | approach ms => simp [act, elapse, ring_keeps, poll]

theorem act_held : (s.act choice a).held = true ↔
    (s.held = true ∧ a.disturbs = false) ∨ ∃ delay e, a = .arm delay e ∧ s.cancelled = false := by
  cases a with
  | arm delay e => cases hc : s.cancelled <;> simp [act, arm, callOff, hc, AlarmAct.disturbs]
  | disarm => simp [act, callOff, AlarmAct.disturbs]
  | cancelAll => simp [act, callOff, AlarmAct.disturbs]
  | settle => simp [act, elapse, ring_keeps, poll, AlarmAct.disturbs]
  | advance ms => simp [act, elapse, ring_keeps, poll, AlarmAct.disturbs]
  | approach ms => simp [act, elapse, ring_keeps, poll, AlarmAct.disturbs]

end AlarmState

/-! ## Armings -/

namespace AlarmRun

def instant (acts : List (AlarmAct ε)) (i : Nat) : Nat :=
  (acts.take i).foldl (fun now a => now + a.span) 0

def arming? (acts : List (AlarmAct ε)) (i : Nat) : Option (Arming ε) :=
  match acts[i]? with
  | some (.arm delay e) =>
    some ⟨(acts.take i).countP AlarmAct.isArm, instant acts i + delay, e⟩
  | _ => none

structure Arms (acts : List (AlarmAct ε)) (i : Nat) (p : Arming ε) : Prop where
  arming : arming? acts i = some p
  allowed : .cancelAll ∉ acts.take i

def Calm (acts : List (AlarmAct ε)) (i k : Nat) : Prop :=
  ∀ j a, i < j → j < k → acts[j]? = some a → a.disturbs = false

def RunsAt (acts : List (AlarmAct ε)) (k due : Nat) : Prop :=
  ∃ a, acts[k]? = some a ∧ a.reaches (instant acts k) due = true

/-- The act arms the alarm, and what is due then runs before anything disturbs it. -/
def Rings (acts : List (AlarmAct ε)) (i : Nat) (p : Arming ε) : Prop :=
  ∃ k, Arms acts i p ∧ i < k ∧ RunsAt acts k p.due ∧ Calm acts i k

structure Waits (acts : List (AlarmAct ε)) (i : Nat) (p : Arming ε) : Prop where
  arms : Arms acts i p
  calm : Calm acts i acts.length
  early : ∀ k, i < k → ¬ RunsAt acts k p.due

/-- What act `i` arms is called off in act `j`: at once if the desk is cancelled, otherwise by the
first act that disturbs it. -/
def CalledOff (acts : List (AlarmAct ε)) (i j : Nat) : Prop :=
  (i = j ∧ .cancelAll ∈ acts.take i) ∨
  (.cancelAll ∉ acts.take i ∧ i < j ∧ Calm acts i j ∧
    ∃ a, acts[j]? = some a ∧ a.disturbs = true)

structure Caught (acts : List (AlarmAct ε)) (i j : Nat) (p : Arming ε) : Prop where
  arming : arming? acts i = some p
  off : CalledOff acts i j
  early : ∀ k, i < k → k < j → ¬ RunsAt acts k p.due

/-- The act is the first after the `j`-th that polls the tasks. -/
structure Polls (acts : List (AlarmAct ε)) (j k : Nat) : Prop where
  later : j < k
  runs : ∃ a, acts[k]? = some a ∧ a.disturbs = false
  first : ∀ l a, j < l → l < k → acts[l]? = some a → a.disturbs = true

/-- The arming was called off before it could ring, but its time is up when it is polled. -/
def Races (acts : List (AlarmAct ε)) (i : Nat) (p : Arming ε) : Prop :=
  ∃ j k, Caught acts i j p ∧ Polls acts j k ∧ p.due ≤ instant acts k

def Lingers (acts : List (AlarmAct ε)) (i : Nat) (p : Arming ε) : Prop :=
  ∃ j, Caught acts i j p ∧ ∀ k a, j < k → acts[k]? = some a → a.disturbs = true

theorem lt_of_getElem? {b : AlarmAct ε} (h : acts[i]? = some b) : i < acts.length :=
  (List.getElem?_eq_some_iff.mp h).1

theorem disturbs_of_arming (h : arming? acts i = some p) :
    ∃ a, acts[i]? = some a ∧ a.disturbs = true := by
  unfold arming? at h
  split at h
  · exact ⟨_, ‹_›, rfl⟩
  · cases h

theorem lt_of_arming (h : arming? acts i = some p) : i < acts.length :=
  let ⟨_, ha, _⟩ := disturbs_of_arming h
  lt_of_getElem? ha

theorem Arms.lt (h : Arms acts i p) : i < acts.length := lt_of_arming h.arming

theorem le_of_lt_concat (h : k < (acts ++ [a]).length) : k ≤ acts.length := by
  rw [List.length_append, List.length_singleton] at h
  exact Nat.le_of_lt_succ h

theorem RunsAt.lt (h : RunsAt acts k due) : k < acts.length :=
  let ⟨_, hb, _⟩ := h
  lt_of_getElem? hb

/-! ### One more act -/

theorem instant_concat (h : i ≤ acts.length) : instant (acts ++ [a]) i = instant acts i := by
  rw [instant, instant, List.take_append_of_le_length h]

theorem instant_concat_length :
    instant (acts ++ [a]) (acts ++ [a]).length = instant acts acts.length + a.span := by
  simp only [instant, List.take_length, List.foldl_concat]

theorem getElem?_concat {b : AlarmAct ε} : (acts ++ [a])[i]? = some b ↔
    acts[i]? = some b ∨ i = acts.length ∧ a = b := by
  rcases Nat.lt_trichotomy i acts.length with h | rfl | h
  · rw [List.getElem?_append_left h]
    simp [Nat.ne_of_lt h]
  · simp
  · have hnone : acts[i]? = none := List.getElem?_eq_none (Nat.le_of_lt h)
    have hnone' : (acts ++ [a])[i]? = none := List.getElem?_eq_none (by simp; omega)
    simp [hnone, hnone', Nat.ne_of_gt h]

theorem arming?_concat (h : i < acts.length) : arming? (acts ++ [a]) i = arming? acts i := by
  unfold arming?
  rw [List.getElem?_append_left h, instant_concat (Nat.le_of_lt h),
    List.take_append_of_le_length (Nat.le_of_lt h)]

/-- An arming of the longer run is an old one, or that of the new act. -/
theorem arming_concat : arming? (acts ++ [a]) i = some p ↔
    arming? acts i = some p ∨ i = acts.length ∧ arming? (acts ++ [a]) i = some p := by
  constructor
  · intro h
    rcases Nat.lt_or_eq_of_le (le_of_lt_concat (lt_of_arming h)) with hi | hi
    · exact .inl ((arming?_concat hi).symm.trans h)
    · exact .inr ⟨hi, h⟩
  · rintro (h | ⟨_, h⟩)
    · exact (arming?_concat (lt_of_arming h)).trans h
    · exact h

theorem arms_concat : Arms (acts ++ [a]) i p ↔ Arms acts i p ∨
    i = acts.length ∧ arming? (acts ++ [a]) i = some p ∧ .cancelAll ∉ acts := by
  constructor
  · rintro ⟨harming, hallowed⟩
    rcases arming_concat.mp harming with hold | ⟨rfl, hnew⟩
    · rw [List.take_append_of_le_length (Nat.le_of_lt (lt_of_arming hold))] at hallowed
      exact .inl ⟨hold, hallowed⟩
    · rw [List.take_left] at hallowed
      exact .inr ⟨rfl, hnew, hallowed⟩
  · rintro (h | ⟨rfl, hnew, hallowed⟩)
    · refine ⟨arming_concat.mpr (.inl h.arming), ?_⟩
      rw [List.take_append_of_le_length (Nat.le_of_lt h.lt)]
      exact h.allowed
    · refine ⟨hnew, ?_⟩
      rw [List.take_left]
      exact hallowed

theorem calm_concat (h : k ≤ acts.length) : Calm (acts ++ [a]) i k ↔ Calm acts i k := by
  unfold Calm
  refine forall_congr' fun j => forall_congr' fun b => ?_
  refine imp_congr_right fun _ => imp_congr_right fun hj => ?_
  rw [List.getElem?_append_left (Nat.lt_of_lt_of_le hj h)]

theorem calm_concat_length (h : i < acts.length) : Calm (acts ++ [a]) i (acts ++ [a]).length ↔
    Calm acts i acts.length ∧ a.disturbs = false := by
  rw [List.length_append, List.length_singleton]
  constructor
  · intro hcalm
    exact ⟨fun j b hij hj hb => hcalm j b hij (by omega) (getElem?_concat.mpr (.inl hb)),
      hcalm _ a h (by omega) (getElem?_concat.mpr (.inr ⟨rfl, rfl⟩))⟩
  · rintro ⟨hcalm, hquiet⟩ j b hij _ hb
    rcases getElem?_concat.mp hb with hb | ⟨_, rfl⟩
    · exact hcalm j b hij (lt_of_getElem? hb) hb
    · exact hquiet

theorem runsAt_concat : RunsAt (acts ++ [a]) k due ↔ RunsAt acts k due ∨
    k = acts.length ∧ a.reaches (instant acts acts.length) due = true := by
  constructor
  · rintro ⟨b, hb, hreach⟩
    rcases getElem?_concat.mp hb with hb | ⟨rfl, rfl⟩
    · rw [instant_concat (Nat.le_of_lt (lt_of_getElem? hb))] at hreach
      exact .inl ⟨b, hb, hreach⟩
    · rw [instant_concat (Nat.le_refl _)] at hreach
      exact .inr ⟨rfl, hreach⟩
  · rintro (⟨b, hb, hreach⟩ | ⟨rfl, hreach⟩)
    · refine ⟨b, getElem?_concat.mpr (.inl hb), ?_⟩
      rwa [instant_concat (Nat.le_of_lt (lt_of_getElem? hb))]
    · refine ⟨a, getElem?_concat.mpr (.inr ⟨rfl, rfl⟩), ?_⟩
      rwa [instant_concat (Nat.le_refl _)]

theorem rings_concat : Rings (acts ++ [a]) i p ↔ Rings acts i p ∨
    Waits acts i p ∧ a.reaches (instant acts acts.length) p.due = true := by
  constructor
  · rintro ⟨k, harms, hik, hruns, hcalm⟩
    have hk : k ≤ acts.length := le_of_lt_concat hruns.lt
    have harms : Arms acts i p := (arms_concat.mp harms).resolve_right fun h => by omega
    rw [calm_concat hk] at hcalm
    rcases runsAt_concat.mp hruns with hruns | ⟨rfl, hreach⟩
    · exact .inl ⟨k, harms, hik, hruns, hcalm⟩
    · -- the new act is the first to run at the deadline, unless an earlier one did
      by_cases hearly : ∃ l, i < l ∧ RunsAt acts l p.due
      · obtain ⟨l, hil, hl⟩ := hearly
        exact .inl ⟨l, harms, hil, hl, fun j b hij hj hb =>
          hcalm j b hij (Nat.lt_trans hj hl.lt) hb⟩
      · exact .inr ⟨⟨harms, hcalm, fun l hil hl => hearly ⟨l, hil, hl⟩⟩, hreach⟩
  · rintro (⟨k, harms, hik, hruns, hcalm⟩ | ⟨hwaits, hreach⟩)
    · exact ⟨k, arms_concat.mpr (.inl harms), hik, runsAt_concat.mpr (.inl hruns),
        (calm_concat (Nat.le_of_lt hruns.lt)).mpr hcalm⟩
    · exact ⟨acts.length, arms_concat.mpr (.inl hwaits.arms), hwaits.arms.lt,
        runsAt_concat.mpr (.inr ⟨rfl, hreach⟩), (calm_concat (Nat.le_refl _)).mpr hwaits.calm⟩

theorem waits_concat : Waits (acts ++ [a]) i p ↔
    (Waits acts i p ∧ a.disturbs = false ∧
      a.reaches (instant acts acts.length) p.due = false) ∨
    i = acts.length ∧ arming? (acts ++ [a]) i = some p ∧ .cancelAll ∉ acts := by
  constructor
  · rintro ⟨harms, hcalm, hearly⟩
    rcases arms_concat.mp harms with harms | hnew
    · obtain ⟨hcalm, hquiet⟩ := (calm_concat_length harms.lt).mp hcalm
      refine .inl ⟨⟨harms, hcalm, fun k hik hruns => ?_⟩, hquiet, ?_⟩
      · exact hearly k hik (runsAt_concat.mpr (.inl hruns))
      · exact eq_false_of_ne_true fun h =>
          hearly _ harms.lt (runsAt_concat.mpr (.inr ⟨rfl, h⟩))
    · exact .inr hnew
  · rintro (⟨⟨harms, hcalm, hearly⟩, hquiet, hlate⟩ | hnew)
    · refine ⟨arms_concat.mpr (.inl harms), (calm_concat_length harms.lt).mpr ⟨hcalm, hquiet⟩, ?_⟩
      intro k hik hruns
      rcases runsAt_concat.mp hruns with hruns | ⟨_, hreach⟩
      · exact hearly k hik hruns
      · cases hlate.symm.trans hreach
    · refine ⟨arms_concat.mpr (.inr hnew), ?_, fun k hik hruns => ?_⟩
      · intro j b hij hj _
        exact absurd (le_of_lt_concat hj) (Nat.not_le_of_lt (hnew.1 ▸ hij))
      · exact absurd (le_of_lt_concat hruns.lt) (Nat.not_le_of_lt (hnew.1 ▸ hik))

theorem Caught.lt (h : Caught acts i j p) : j < acts.length := by
  rcases h.off with ⟨rfl, _⟩ | ⟨_, _, _, b, hb, _⟩
  · exact lt_of_arming h.arming
  · exact lt_of_getElem? hb

theorem caught_concat : Caught (acts ++ [a]) i j p ↔ Caught acts i j p ∨
    j = acts.length ∧ a.disturbs = true ∧ (Waits acts i p ∨
      i = acts.length ∧ arming? (acts ++ [a]) i = some p ∧ .cancelAll ∈ acts) := by
  have hearly : j ≤ acts.length → ((∀ k, i < k → k < j → ¬ RunsAt (acts ++ [a]) k p.due) ↔
      ∀ k, i < k → k < j → ¬ RunsAt acts k p.due) := by
    intro hj
    refine forall_congr' fun k => imp_congr_right fun _ => imp_congr_right fun hk => ?_
    rw [runsAt_concat, or_iff_left fun h => absurd h.1 (Nat.ne_of_lt (Nat.lt_of_lt_of_le hk hj))]
  constructor
  · rintro ⟨harming, ⟨rfl, hcancelled⟩ | ⟨hallowed, hij, hcalm, b, hb, hdisturbs⟩, hquiet⟩
    · rcases arming_concat.mp harming with hold | ⟨rfl, hnew⟩
      · have hi := Nat.le_of_lt (lt_of_arming hold)
        rw [List.take_append_of_le_length hi] at hcancelled
        exact .inl ⟨hold, .inl ⟨rfl, hcancelled⟩, (hearly hi).mp hquiet⟩
      · rw [List.take_left] at hcancelled
        obtain ⟨b, hb, hdisturbs⟩ := disturbs_of_arming hnew
        rw [List.getElem?_concat_length] at hb
        cases hb
        exact .inr ⟨rfl, hdisturbs, .inr ⟨rfl, hnew, hcancelled⟩⟩
    · have hj : j ≤ acts.length := le_of_lt_concat (lt_of_getElem? hb)
      have hi : i < acts.length := Nat.lt_of_lt_of_le hij hj
      rw [arming?_concat hi] at harming
      rw [List.take_append_of_le_length (Nat.le_of_lt hi)] at hallowed
      rw [calm_concat hj] at hcalm
      rw [hearly hj] at hquiet
      rcases getElem?_concat.mp hb with hb | ⟨rfl, rfl⟩
      · exact .inl ⟨harming, .inr ⟨hallowed, hij, hcalm, b, hb, hdisturbs⟩, hquiet⟩
      · exact .inr ⟨rfl, hdisturbs, .inl ⟨⟨harming, hallowed⟩, hcalm,
          fun k hik hruns => hquiet k hik hruns.lt hruns⟩⟩
  · rintro (h | ⟨rfl, hdisturbs, hwaits | ⟨rfl, hnew, hcancelled⟩⟩)
    · have hi := lt_of_arming h.arming
      refine ⟨(arming?_concat hi).trans h.arming, ?_, (hearly (Nat.le_of_lt h.lt)).mpr h.early⟩
      rw [CalledOff, List.take_append_of_le_length (Nat.le_of_lt hi),
        calm_concat (Nat.le_of_lt h.lt), List.getElem?_append_left h.lt]
      exact h.off
    · have hi := hwaits.arms.lt
      refine ⟨(arming?_concat hi).trans hwaits.arms.arming, .inr ⟨?_, hi, ?_, a, ?_, hdisturbs⟩,
        (hearly (Nat.le_refl _)).mpr fun k hik _ => hwaits.early k hik⟩
      · rw [List.take_append_of_le_length (Nat.le_of_lt hi)]
        exact hwaits.arms.allowed
      · exact (calm_concat (Nat.le_refl _)).mpr hwaits.calm
      · exact List.getElem?_concat_length
    · refine ⟨hnew, .inl ⟨rfl, ?_⟩, fun k hik hk => absurd hik (Nat.lt_asymm hk)⟩
      rw [List.take_left]
      exact hcancelled

theorem polls_concat : Polls (acts ++ [a]) j k ↔ Polls acts j k ∨
    (k = acts.length ∧ j < acts.length ∧ a.disturbs = false ∧
      ∀ l b, j < l → acts[l]? = some b → b.disturbs = true) := by
  constructor
  · rintro ⟨hjk, ⟨b, hb, hruns⟩, hfirst⟩
    have hold : ∀ l c, j < l → l < k → acts[l]? = some c → c.disturbs = true :=
      fun l c hjl hlk hc => hfirst l c hjl hlk (getElem?_concat.mpr (.inl hc))
    rcases getElem?_concat.mp hb with hb | ⟨rfl, rfl⟩
    · exact .inl ⟨hjk, ⟨b, hb, hruns⟩, hold⟩
    · exact .inr ⟨rfl, hjk, hruns, fun l c hjl hc => hold l c hjl (lt_of_getElem? hc) hc⟩
  · rintro (⟨hjk, ⟨b, hb, hruns⟩, hfirst⟩ | ⟨rfl, hjk, hruns, hfirst⟩)
    · refine ⟨hjk, ⟨b, getElem?_concat.mpr (.inl hb), hruns⟩, fun l c hjl hlk hc => ?_⟩
      rw [List.getElem?_append_left (Nat.lt_trans hlk (lt_of_getElem? hb))] at hc
      exact hfirst l c hjl hlk hc
    · refine ⟨hjk, ⟨a, List.getElem?_concat_length, hruns⟩, fun l c hjl hlk hc => ?_⟩
      rw [List.getElem?_append_left hlk] at hc
      exact hfirst l c hjl hc

theorem Lingers.arming (h : Lingers acts i p) : arming? acts i = some p :=
  let ⟨_, hcaught, _⟩ := h
  hcaught.arming

theorem races_concat : Races (acts ++ [a]) i p ↔ Races acts i p ∨
    a.disturbs = false ∧ Lingers acts i p ∧ p.due ≤ instant acts acts.length := by
  constructor
  · rintro ⟨j, k, hcaught, hpolls, hdue⟩
    rcases polls_concat.mp hpolls with hpolls | ⟨rfl, hj, hruns, hfirst⟩
    · obtain ⟨b, hb, _⟩ := hpolls.runs
      have hk := lt_of_getElem? hb
      rw [instant_concat (Nat.le_of_lt hk)] at hdue
      rcases caught_concat.mp hcaught with hcaught | ⟨rfl, _⟩
      · exact .inl ⟨j, k, hcaught, hpolls, hdue⟩
      · exact absurd hpolls.later (Nat.lt_asymm hk)
    · rw [instant_concat (Nat.le_refl _)] at hdue
      rcases caught_concat.mp hcaught with hcaught | ⟨rfl, _⟩
      · exact .inr ⟨hruns, ⟨j, hcaught, hfirst⟩, hdue⟩
      · exact absurd hj (Nat.lt_irrefl _)
  · rintro (⟨j, k, hcaught, hpolls, hdue⟩ | ⟨hruns, ⟨j, hcaught, hfirst⟩, hdue⟩)
    · obtain ⟨b, hb, _⟩ := hpolls.runs
      refine ⟨j, k, caught_concat.mpr (.inl hcaught), polls_concat.mpr (.inl hpolls), ?_⟩
      rwa [instant_concat (Nat.le_of_lt (lt_of_getElem? hb))]
    · refine ⟨j, acts.length, caught_concat.mpr (.inl hcaught),
        polls_concat.mpr (.inr ⟨rfl, hcaught.lt, hruns, hfirst⟩), ?_⟩
      rwa [instant_concat (Nat.le_refl _)]

theorem lingers_concat : Lingers (acts ++ [a]) i p ↔ a.disturbs = true ∧
    (Lingers acts i p ∨ Waits acts i p ∨
      i = acts.length ∧ arming? (acts ++ [a]) i = some p ∧ .cancelAll ∈ acts) := by
  constructor
  · rintro ⟨j, hcaught, hlater⟩
    rcases caught_concat.mp hcaught with hcaught | ⟨rfl, hdisturbs, hnew⟩
    · exact ⟨hlater _ a hcaught.lt List.getElem?_concat_length,
        .inl ⟨j, hcaught, fun k b hjk hb => hlater k b hjk (getElem?_concat.mpr (.inl hb))⟩⟩
    · exact ⟨hdisturbs, .inr hnew⟩
  · rintro ⟨hdisturbs, ⟨j, hcaught, hlater⟩ | hnew⟩
    · refine ⟨j, caught_concat.mpr (.inl hcaught), fun k b hjk hb => ?_⟩
      rcases getElem?_concat.mp hb with hb | ⟨_, rfl⟩
      · exact hlater k b hjk hb
      · exact hdisturbs
    · refine ⟨acts.length, caught_concat.mpr (.inr ⟨rfl, hdisturbs, hnew⟩), fun k b hk hb => ?_⟩
      exact absurd (le_of_lt_concat (lt_of_getElem? hb)) (Nat.not_le_of_lt hk)

/-! ### Runs -/

variable {choice : Nat → Bool}

theorem run_now (choice : Nat → Bool) (acts : List (AlarmAct ε)) :
    (AlarmState.run choice acts).now = instant acts acts.length := by
  induction acts using List.reverseRecOn with
  | nil => rfl
  | append_singleton acts a ih =>
    rw [AlarmState.run_concat, AlarmState.act_now, ih, instant_concat_length]

theorem run_armings (choice : Nat → Bool) (acts : List (AlarmAct ε)) :
    (AlarmState.run choice acts).armings = acts.countP AlarmAct.isArm := by
  induction acts using List.reverseRecOn with
  | nil => rfl
  | append_singleton acts a ih =>
    rw [AlarmState.run_concat, AlarmState.act_armings, ih, List.countP_append,
      List.countP_singleton]

theorem run_cancelled (choice : Nat → Bool) (acts : List (AlarmAct ε)) :
    (AlarmState.run choice acts).cancelled = true ↔ .cancelAll ∈ acts := by
  induction acts using List.reverseRecOn with
  | nil => simp [AlarmState.run]
  | append_singleton acts a ih =>
    rw [AlarmState.run_concat, AlarmState.act_cancelled, ih]
    simp [eq_comm]

theorem run_open (choice : Nat → Bool) (acts : List (AlarmAct ε)) :
    (AlarmState.run choice acts).cancelled = false ↔ .cancelAll ∉ acts := by
  rw [← run_cancelled choice, Bool.not_eq_true]

theorem run_fresh (choice : Nat → Bool) (acts : List (AlarmAct ε)) (a : AlarmAct ε) :
    (AlarmState.run choice acts).fresh? a = arming? (acts ++ [a]) acts.length := by
  unfold arming?
  rw [List.getElem?_concat_length, instant_concat (Nat.le_refl _), List.take_left]
  cases a with
  | arm delay e => rw [AlarmState.fresh?, run_now, run_armings]
  | _ => rfl

theorem run_held (choice : Nat → Bool) (acts : List (AlarmAct ε)) :
    (AlarmState.run choice acts).held = true ↔
      ∃ i p, Arms acts i p ∧ Calm acts i acts.length := by
  induction acts using List.reverseRecOn with
  | nil =>
    refine iff_of_false nofun ?_
    rintro ⟨i, p, harms, _⟩
    exact absurd harms.lt (Nat.not_lt_zero i)
  | append_singleton acts a ih =>
    rw [AlarmState.run_concat, AlarmState.act_held, ih, run_open]
    constructor
    · rintro (⟨⟨i, p, harms, hcalm⟩, hquiet⟩ | ⟨delay, e, rfl, hopen⟩)
      · exact ⟨i, p, arms_concat.mpr (.inl harms),
          (calm_concat_length harms.lt).mpr ⟨hcalm, hquiet⟩⟩
      · refine ⟨acts.length, _, arms_concat.mpr (.inr ⟨rfl, (run_fresh choice acts _).symm, hopen⟩),
          fun j b hij hj _ => ?_⟩
        exact absurd (le_of_lt_concat hj) (Nat.not_le_of_lt hij)
    · rintro ⟨i, p, harms, hcalm⟩
      rcases arms_concat.mp harms with harms | ⟨rfl, hnew, hopen⟩
      · obtain ⟨hcalm, hquiet⟩ := (calm_concat_length harms.lt).mp hcalm
        exact .inl ⟨⟨i, p, harms, hcalm⟩, hquiet⟩
      · refine .inr ?_
        rw [← run_fresh choice] at hnew
        cases a with
        | arm delay e => exact ⟨delay, e, rfl, hopen⟩
        | _ => cases hnew

/-- The acts whose armings were posted, linger and wait, in the order of arming. -/
structure Tracks (choice : Nat → Bool) (acts : List (AlarmAct ε)) (rung off : List Nat)
    (waiting : Option Nat) : Prop where
  sorted : (rung ++ off ++ waiting.toList).Pairwise (· < ·)
  rung_iff : ∀ i, i ∈ rung ↔ ∃ p, Rings acts i p ∨ Races acts i p ∧ choice p.number = true
  off_iff : ∀ i, i ∈ off ↔ ∃ p, Lingers acts i p
  waiting_iff : ∀ i, waiting = some i ↔ ∃ p, Waits acts i p
  posted_eq : (AlarmState.run choice acts).posted =
    (rung.filterMap (arming? acts)).map Arming.note
  off_eq : (AlarmState.run choice acts).off = off.filterMap (arming? acts)
  pending_eq : (AlarmState.run choice acts).pending = waiting.bind (arming? acts)

namespace Tracks

variable {rung off : List Nat} {waiting : Option Nat}

theorem lt (h : Tracks choice acts rung off waiting) (hi : i ∈ rung ++ off ++ waiting.toList) :
    i < acts.length := by
  rcases List.mem_append.mp hi with hi | hi
  · rcases List.mem_append.mp hi with hi | hi
    · obtain ⟨p, ⟨_, hrings, _⟩ | ⟨⟨_, _, hcaught, _⟩, _⟩⟩ := (h.rung_iff i).mp hi
      · exact hrings.lt
      · exact lt_of_arming hcaught.arming
    · obtain ⟨p, _, hcaught, _⟩ := (h.off_iff i).mp hi
      exact lt_of_arming hcaught.arming
  · obtain ⟨p, hwaits⟩ := (h.waiting_iff i).mp (Option.mem_toList.mp hi)
    exact hwaits.arms.lt

theorem filterMap_concat {is : List Nat} (h : ∀ i ∈ is, i < acts.length) :
    is.filterMap (arming? (acts ++ [a])) = is.filterMap (arming? acts) :=
  List.filterMap_congr fun i hi => arming?_concat (h i hi)

theorem filterMap_toList {α β : Type} (f : α → Option β) (o : Option α) :
    o.toList.filterMap f = (o.bind f).toList := by
  cases o with
  | none => rfl
  | some x => cases hx : f x <;> simp [hx]

theorem filter_filterMap {α β : Type} {f : α → Option β} {keep : β → Bool} {g : α → Bool}
    (hg : ∀ x y, f x = some y → g x = keep y) (xs : List α) :
    (xs.filterMap f).filter keep = (xs.filter g).filterMap f := by
  rw [List.filterMap_filter, List.filter_filterMap]
  refine List.filterMap_congr fun x _ => ?_
  cases hx : f x with
  | none => simp
  | some y => cases hy : keep y <;> simp [Option.filter, hg x y hx, hy]

theorem filter_bind {α β : Type} {f : α → Option β} {keep : β → Bool} {g : α → Bool}
    (hg : ∀ x y, f x = some y → g x = keep y) (o : Option α) :
    (o.bind f).filter keep = (o.filter g).bind f := by
  cases o with
  | none => rfl
  | some x =>
    cases hx : f x with
    | none => cases hgx : g x <;> simp [Option.filter, hgx, hx]
    | some y => cases hy : keep y <;> simp [Option.filter, hg x y hx, hx, hy]

theorem toList_filter_append {α : Type} (keep : α → Bool) (o : Option α) :
    (o.filter keep).toList ++ (o.filter fun x => !keep x).toList = o.toList := by
  cases o with
  | none => rfl
  | some x => cases hx : keep x <;> simp [Option.filter, hx]

def newest? (acts : List (AlarmAct ε)) (a : AlarmAct ε) : Option Nat :=
  (arming? (acts ++ [a]) acts.length).map fun _ => acts.length

theorem newest?_eq_some : newest? acts a = some i ↔
    ∃ p, i = acts.length ∧ arming? (acts ++ [a]) i = some p := by
  unfold newest?
  constructor
  · intro h
    obtain ⟨p, hp, rfl⟩ := Option.map_eq_some_iff.mp h
    exact ⟨p, rfl, hp⟩
  · rintro ⟨p, rfl, hp⟩
    rw [hp, Option.map_some]

theorem newest?_bind (acts : List (AlarmAct ε)) (a : AlarmAct ε) :
    (newest? acts a).bind (arming? (acts ++ [a])) = arming? (acts ++ [a]) acts.length := by
  unfold newest?
  cases h : arming? (acts ++ [a]) acts.length with
  | none => rfl
  | some p => exact h

theorem sorted_newest (h : Tracks choice acts rung off waiting) (a : AlarmAct ε) :
    (rung ++ off ++ waiting.toList ++ (newest? acts a).toList).Pairwise (· < ·) := by
  refine List.pairwise_append.mpr ⟨h.sorted, ?_, fun i hi j hj => ?_⟩
  · cases newest? acts a with
    | none => exact .nil
    | some i => exact List.pairwise_singleton _ _
  · obtain ⟨_, rfl, _⟩ := newest?_eq_some.mp (Option.mem_toList.mp hj)
    exact h.lt hi

/-! ### An act that disturbs the alarm -/

section Disturbing

variable (h : Tracks choice acts rung off waiting) (ha : a.disturbs = true)

include h ha

theorem mem_rung_disturb : i ∈ rung ↔
    ∃ p, Rings (acts ++ [a]) i p ∨ Races (acts ++ [a]) i p ∧ choice p.number = true := by
  rw [h.rung_iff]
  refine exists_congr fun p => ?_
  have hreach : a.reaches (instant acts acts.length) p.due ≠ true := fun hr =>
    Bool.false_ne_true ((AlarmAct.disturbs_of_reaches hr).symm.trans ha)
  rw [rings_concat, races_concat]
  simp [ha, hreach]

theorem exists_lingers_disturb : (∃ p, Lingers (acts ++ [a]) i p) ↔
    (i ∈ off ∨ waiting = some i) ∨ newest? acts a = some i ∧ .cancelAll ∈ acts := by
  simp only [lingers_concat, ha, true_and, exists_or, ← h.off_iff, ← h.waiting_iff, or_assoc,
    newest?_eq_some, exists_and_left, exists_and_right, and_assoc]

theorem posted_disturb : (AlarmState.run choice (acts ++ [a])).posted =
    (rung.filterMap (arming? (acts ++ [a]))).map Arming.note := by
  rw [AlarmState.run_concat, (AlarmState.act_of_disturbs _ choice ha).1, h.posted_eq,
    filterMap_concat fun i hi => h.lt (List.mem_append_left _ (List.mem_append_left _ hi))]

/-- What waits is called off, and what the act arms under a cancelled desk is born so. -/
theorem disturb : ∃ off' waiting', Tracks choice (acts ++ [a]) rung off' waiting' := by
  obtain ⟨_, hoff, hpending⟩ :=
    AlarmState.act_of_disturbs (AlarmState.run choice acts) choice ha
  rw [← AlarmState.run_concat, run_fresh] at hoff hpending
  have hoffs : (AlarmState.run choice acts).off ++ (AlarmState.run choice acts).pending.toList =
      (off ++ waiting.toList).filterMap (arming? (acts ++ [a])) := by
    rw [filterMap_concat fun i hi => h.lt ?_, List.filterMap_append, filterMap_toList, h.off_eq,
      h.pending_eq]
    rw [List.append_assoc]
    exact List.mem_append_right _ hi
  have hwait : ∀ i, (∃ p, Waits (acts ++ [a]) i p) ↔
      newest? acts a = some i ∧ .cancelAll ∉ acts := by
    intro i
    simp [waits_concat, ha, newest?_eq_some, and_assoc]
  have hrung := fun i => h.mem_rung_disturb ha (i := i)
  have hsorted := h.sorted_newest a
  by_cases hc : .cancelAll ∈ acts
  · rw [(run_cancelled choice acts).mpr hc, if_pos rfl] at hoff hpending
    refine ⟨off ++ waiting.toList ++ (newest? acts a).toList, none, ?_, hrung, fun i => ?_,
      fun i => ?_, h.posted_disturb ha, ?_, hpending⟩
    · simpa using hsorted
    · simp [h.exists_lingers_disturb ha, hc, or_assoc]
    · simp [hwait, hc]
    · rw [hoff, hoffs, ← newest?_bind, ← filterMap_toList, ← List.filterMap_append]
  · rw [(run_open choice acts).mpr hc, if_neg Bool.false_ne_true] at hoff hpending
    refine ⟨off ++ waiting.toList, newest? acts a, ?_, hrung, fun i => ?_, fun i => ?_,
      h.posted_disturb ha, ?_, ?_⟩
    · simpa using hsorted
    · simp [h.exists_lingers_disturb ha, hc]
    · simp [hwait, hc]
    · rw [hoff, hoffs]
      exact List.append_nil _
    · rw [hpending, newest?_bind]

end Disturbing

/-! ### An act in which time passes -/

def wins (choice : Nat → Bool) (acts : List (AlarmAct ε)) (i : Nat) : Bool :=
  (arming? acts i).any fun p => p.due ≤ instant acts acts.length && choice p.number

def reached (acts : List (AlarmAct ε)) (a : AlarmAct ε) (i : Nat) : Bool :=
  (arming? acts i).any fun p => a.reaches (instant acts acts.length) p.due

theorem wins_eq (hp : arming? acts i = some p) : wins choice acts i =
    (decide (p.due ≤ instant acts acts.length) && choice p.number) := by
  rw [wins, hp, Option.any_some]

theorem reached_eq (hp : arming? acts i = some p) :
    reached acts a i = a.reaches (instant acts acts.length) p.due := by
  rw [reached, hp, Option.any_some]

section Elapsing

variable (h : Tracks choice acts rung off waiting)

include h

theorem late_eq : (AlarmState.run choice acts).late choice =
    (off.filter (wins choice acts)).filterMap (arming? acts) := by
  rw [AlarmState.late, h.off_eq, run_now]
  exact filter_filterMap (fun i p hp => wins_eq hp) off

theorem filter_pending {keep : Arming ε → Bool} {g : Nat → Bool}
    (hg : ∀ i p, arming? acts i = some p → g i = keep p) :
    (AlarmState.run choice acts).pending.filter keep = (waiting.filter g).bind (arming? acts) := by
  rw [h.pending_eq]
  exact filter_bind hg waiting

theorem exists_rung_elapse (ha : a.disturbs = false) :
    (∃ p, Rings (acts ++ [a]) i p ∨ Races (acts ++ [a]) i p ∧ choice p.number = true) ↔
      i ∈ rung ∨ (i ∈ off ∧ wins choice acts i = true) ∨
        waiting = some i ∧ reached acts a i = true := by
  rw [h.rung_iff, h.off_iff, h.waiting_iff]
  simp only [rings_concat, races_concat, ha, true_and]
  constructor
  · rintro ⟨p, (hrings | ⟨hwaits, hreach⟩) | ⟨hraces | ⟨hlingers, hdue⟩, hchoice⟩⟩
    · exact .inl ⟨p, .inl hrings⟩
    · exact .inr (.inr ⟨⟨p, hwaits⟩, (reached_eq hwaits.arms.arming).trans hreach⟩)
    · exact .inl ⟨p, .inr ⟨hraces, hchoice⟩⟩
    · exact .inr (.inl ⟨⟨p, hlingers⟩, by simp [wins_eq hlingers.arming, hdue, hchoice]⟩)
  · rintro (⟨p, hrings | ⟨hraces, hchoice⟩⟩ | ⟨⟨p, hlingers⟩, hwins⟩ | ⟨⟨p, hwaits⟩, hreached⟩)
    · exact ⟨p, .inl (.inl hrings)⟩
    · exact ⟨p, .inr ⟨.inl hraces, hchoice⟩⟩
    · rw [wins_eq hlingers.arming, Bool.and_eq_true, decide_eq_true_eq] at hwins
      obtain ⟨hdue, hchoice⟩ := hwins
      exact ⟨p, .inr ⟨.inr ⟨hlingers, hdue⟩, hchoice⟩⟩
    · exact ⟨p, .inl (.inr ⟨hwaits, (reached_eq hwaits.arms.arming).symm.trans hreached⟩)⟩

theorem exists_waits_elapse (ha : a.disturbs = false) :
    (∃ p, Waits (acts ++ [a]) i p) ↔ waiting = some i ∧ reached acts a i = false := by
  rw [h.waiting_iff]
  constructor
  · rintro ⟨p, hwaits⟩
    rcases waits_concat.mp hwaits with ⟨hwaits, _, hlate⟩ | ⟨rfl, hnew, _⟩
    · refine ⟨⟨p, hwaits⟩, eq_false_of_ne_true fun hreached => ?_⟩
      cases hlate.symm.trans ((reached_eq hwaits.arms.arming).symm.trans hreached)
    · obtain ⟨b, hb, hdisturbs⟩ := disturbs_of_arming hnew
      rw [List.getElem?_concat_length] at hb
      cases hb
      cases ha.symm.trans hdisturbs
  · rintro ⟨⟨p, hwaits⟩, hlate⟩
    refine ⟨p, waits_concat.mpr (.inl ⟨hwaits, ha, eq_false_of_ne_true fun hreach => ?_⟩)⟩
    cases hlate.symm.trans ((reached_eq hwaits.arms.arming).trans hreach)

/-- What lingers is polled, and rings if it wins; then what waits rings if the act reaches it. -/
theorem elapse (ha : a.disturbs = false) : Tracks choice (acts ++ [a])
    (rung ++ off.filter (wins choice acts) ++ (waiting.filter (reached acts a)).toList) []
    (waiting.filter fun i => !reached acts a i) := by
  have hact : AlarmState.run choice (acts ++ [a]) =
      ((AlarmState.run choice acts).poll choice).elapse a := by
    rw [AlarmState.run_concat, AlarmState.act_of_runs ha]
  have hrings : (AlarmState.run choice acts).pending.filter
        (fun p => a.reaches (AlarmState.run choice acts).now p.due) =
      (waiting.filter (reached acts a)).bind (arming? acts) := by
    rw [run_now]
    exact h.filter_pending fun i p hp => reached_eq hp
  have hstays : (AlarmState.run choice acts).pending.filter
        (fun p => !a.reaches (AlarmState.run choice acts).now p.due) =
      (waiting.filter fun i => !reached acts a i).bind (arming? acts) := by
    rw [run_now]
    exact h.filter_pending fun i p hp => congrArg (!·) (reached_eq hp)
  have hsub : (rung ++ off.filter (wins choice acts) ++
      (waiting.filter (reached acts a)).toList ++ [] ++
        (waiting.filter fun i => !reached acts a i).toList).Sublist
      (rung ++ off ++ waiting.toList) := by
    rw [List.append_nil, List.append_assoc, toList_filter_append]
    exact ((List.Sublist.refl _).append List.filter_sublist).append (List.Sublist.refl _)
  have hold : ∀ i ∈ rung ++ off.filter (wins choice acts) ++
      (waiting.filter (reached acts a)).toList, i < acts.length := by
    intro i hi
    refine h.lt (hsub.subset ?_)
    rw [List.append_nil]
    exact List.mem_append_left _ hi
  refine ⟨h.sorted.sublist hsub, fun i => ?_, fun i => ?_, fun i => ?_, ?_, ?_, ?_⟩
  · rw [h.exists_rung_elapse ha]
    simp
  · simp [lingers_concat, ha]
  · rw [h.exists_waits_elapse ha]
    simp [Option.filter_eq_some_iff]
  · rw [hact, AlarmState.elapse_posted, filterMap_concat hold, List.filterMap_append,
      List.filterMap_append, filterMap_toList, ← h.late_eq, ← hrings, List.map_append,
      List.map_append, ← h.posted_eq]
    rfl
  · rw [hact]
    exact ((AlarmState.run choice acts).poll choice).ring_keeps _ |>.2.2.1
  · rw [hact, AlarmState.elapse_pending]
    refine hstays.trans (Option.bind_congr fun i hi => (arming?_concat (h.lt ?_)).symm)
    exact List.mem_append_right _ (Option.mem_toList.mpr (Option.filter_eq_some_iff.mp hi).1)

end Elapsing

end Tracks

theorem exists_tracks (choice : Nat → Bool) (acts : List (AlarmAct ε)) :
    ∃ rung off waiting, Tracks choice acts rung off waiting := by
  induction acts using List.reverseRecOn with
  | nil =>
    have hnone : ∀ (i : Nat) (p : Arming ε), arming? ([] : List (AlarmAct ε)) i ≠ some p :=
      fun i p hp => absurd (lt_of_arming hp) (Nat.not_lt_zero i)
    refine ⟨[], [], none, .nil, fun i => iff_of_false nofun ?_, fun i => iff_of_false nofun ?_,
      fun i => iff_of_false nofun ?_, rfl, rfl, rfl⟩
    · rintro ⟨p, ⟨_, harms, _⟩ | ⟨⟨_, _, hcaught, _⟩, _⟩⟩
      · exact hnone i p harms.arming
      · exact hnone i p hcaught.arming
    · rintro ⟨p, hlingers⟩
      exact hnone i p hlingers.arming
    · rintro ⟨p, hwaits⟩
      exact hnone i p hwaits.arms.arming
  | append_singleton acts a ih =>
    obtain ⟨rung, off, waiting, h⟩ := ih
    cases ha : a.disturbs with
    | true =>
      obtain ⟨off', waiting', h'⟩ := h.disturb ha
      exact ⟨rung, off', waiting', h'⟩
    | false => exact ⟨_, _, _, h.elapse ha⟩

/-- What races was called off before anything ran at its deadline. -/
theorem Races.not_rings (h : Races acts i p) (q : Arming ε) : ¬ Rings acts i q := by
  rintro ⟨k, harms, hik, hruns, hcalm⟩
  obtain ⟨j, _, hcaught, _⟩ := h
  cases hcaught.arming.symm.trans harms.arming
  rcases hcaught.off with ⟨_, hcancelled⟩ | ⟨_, hij, _, b, hb, hdisturbs⟩
  · exact harms.allowed hcancelled
  · rcases Nat.lt_trichotomy j k with hjk | rfl | hkj
    · cases hdisturbs.symm.trans (hcalm j b hij hjk hb)
    · obtain ⟨c, hc, hreach⟩ := hruns
      cases hb.symm.trans hc
      cases hdisturbs.symm.trans (AlarmAct.disturbs_of_reaches hreach)
    · exact hcaught.early k hik hkj hruns

end AlarmRun

/-- Whatever the tasks choose, each arming is posted at most once, at its deadline, and nothing else
is. It is posted if it rings: the desk was not cancelled before, and something runs at its deadline
before a later arming, calling off or cancelling. It is posted too if it was called off first but
its time is up when it is polled next, and its task chooses the timer. The alarm counts as armed
exactly when the last act that disturbs it is an arming that was allowed. -/
theorem alarm_posts_iff (choice : Nat → Bool) (acts : List (AlarmAct ε)) :
    (∃ rung : List Nat, rung.Pairwise (· < ·) ∧
      (∀ i, i ∈ rung ↔ ∃ p, AlarmRun.Rings acts i p ∨
        AlarmRun.Races acts i p ∧ choice p.number = true) ∧
      (Desk.run choice acts).posted =
        (rung.filterMap (AlarmRun.arming? acts)).map Arming.note) ∧
    (Desk.run choice acts).received = (Desk.run choice acts).posted.map Prod.snd ∧
    (∀ i p q, AlarmRun.Races acts i p → ¬ AlarmRun.Rings acts i q) ∧
    ((Desk.run choice acts).armed = true ↔
      ∃ i p, AlarmRun.Arms acts i p ∧ AlarmRun.Calm acts i acts.length) := by
  have hshows := Desk.run_shows choice acts
  obtain ⟨rung, off, waiting, h⟩ := AlarmRun.exists_tracks choice acts
  have hposted : (Desk.run choice acts).posted = (AlarmState.run choice acts).posted := by
    rw [Desk.posted, hshows.loop_eq]
    rfl
  have hsorted := (List.pairwise_append.mp (List.pairwise_append.mp h.sorted).1).1
  refine ⟨⟨rung, hsorted, h.rung_iff, hposted.trans h.posted_eq⟩, rfl,
    fun i p q hraces => hraces.not_rings q, ?_⟩
  rw [hshows.armed_eq]
  exact AlarmRun.run_held choice acts

/-- An alarm without delay races when the desk is cancelled already: called off as it is armed, it
is posted all the same if its task chooses the timer. -/
theorem cancelled_alarm_races :
    AlarmRun.Races [.cancelAll, .arm 0 'a', .settle] 1 ⟨0, 0, 'a'⟩ ∧
    (¬ AlarmRun.Rings [.cancelAll, .arm 0 'a', .settle] 1 ⟨0, 0, 'a'⟩) ∧
    (Desk.run (fun _ => true) [.cancelAll, .arm 0 'a', .settle]).posted = [(0, 'a')] ∧
    (Desk.run (fun _ => false) [.cancelAll, .arm 0 'a', .settle]).posted = [] := by
  have hraces : AlarmRun.Races [.cancelAll, .arm 0 'a', .settle] 1 ⟨0, 0, 'a'⟩ := by
    refine ⟨1, 2, ⟨rfl, .inl ⟨rfl, by decide⟩, ?_⟩, ⟨by decide, ⟨_, rfl, rfl⟩, ?_⟩, by decide⟩
    · intro k h h'
      omega
    · intro l _ h h' _
      omega
  have hposts := alarm_posts_iff (fun _ => true) [.cancelAll, .arm 0 'a', .settle]
  exact ⟨hraces, hposts.2.2.1 _ _ _ hraces, by decide, by decide⟩

/-- Armed anew at the very instant at which it is due, before it is polled, the alarm may ring
twice. -/
example : (Desk.run (fun _ => true) [.arm 5 'a', .approach 5, .arm 0 'b', .settle]).posted =
      [(5, 'a'), (5, 'b')] ∧
    (Desk.run (fun _ => false) [.arm 5 'a', .approach 5, .arm 0 'b', .settle]).posted =
      [(5, 'b')] := by decide

end PlaybackCues
