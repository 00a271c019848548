import PlaybackCues.Proofs.Notes.Numbering
import PlaybackCues.Proofs.Resolver.Listing
import PlaybackCues.Proofs.Session.Rounds

set_option autoImplicit false

/-!
# Edits and passes

A session writes the notes of an edit to its store when the quiet period after it is over. An edit
that follows takes its place: the timer is armed anew, and the end of a quiet period that is in the
inbox already counts for nothing, as it is of an older generation. So the store and the resolver
hold the cues of the newest notes that were quiet long enough and could be written.
-/
namespace PlaybackCues

/-! ## Turns that edit and turns that write -/

namespace SessionTurn

def edit? (m : SessionTurn) : Option (List Char) :=
  match m.event with
  | .textChanged notes => some notes
  | _ => none

/-- An edit waits until a pass writes it or another edit takes its place. -/
def editing : Alarm SessionTurn (List Char) where
  opens := edit?
  closes m := m.pass?.isSome

variable {m : SessionTurn}

theorem edit?_eq_some {notes : List Char} :
    m.edit? = some notes ↔ m.event = .textChanged notes := by
  unfold edit?
  split
  · rename_i he
    simp [he]
  · rename_i hne
    exact iff_of_false (by simp) (hne notes)

theorem pass?_eq_some {notes : List Char} : m.pass? = some notes ↔
    m.event = .quiet m.before.generation ∧ m.before.edit = some notes := by
  unfold pass?
  split
  · rename_i generation he
    rw [he]
    by_cases hg : generation = m.before.generation
    · simp [hg]
    · simp [hg]
  · rename_i hne
    exact iff_of_false (by simp) fun h => hne _ h.1

theorem pass?_of_edit {notes : List Char} (h : m.edit? = some notes) : m.pass? = none := by
  rw [edit?_eq_some] at h
  unfold pass?
  rw [h]

theorem outcome_edit (m : SessionTurn) :
    m.outcome.edit =
      if m.edit?.isSome then m.edit? else if m.pass?.isSome then none else m.before.edit := by
  unfold outcome edit?
  cases m.event <;> rfl

theorem outcome_generation (m : SessionTurn) :
    m.outcome.generation =
      if m.edit?.isSome then m.before.generation + 1 else m.before.generation := by
  unfold outcome edit?
  cases m.event <;> rfl

/-- Only notes that are written change what the resolver plays. -/
theorem response_cues (m : SessionTurn) :
    m.response.resolver.cues = m.saved?.elim m.before.resolver.cues Notes.parse := by
  have hnone : ∀ {r : Resolver}, (∀ generation, m.event ≠ .quiet generation) →
      r.cues = m.before.resolver.cues →
        r.cues = m.saved?.elim m.before.resolver.cues Notes.parse := by
    intro r hne hr
    have hpass : m.pass? = none := by
      unfold pass?
      split
      · rename_i generation he
        exact absurd he (hne generation)
      · rfl
    rw [saved?, hpass]
    exact hr
  unfold response
  cases he : m.event with
  | poll =>
    refine hnone (by simp [he]) ?_
    cases m.look? with
    | none => rfl
    | some s => exact Resolver.tick_cues _ s
  | textChanged notes => exact hnone (by simp [he]) rfl
  | quiet generation =>
    cases m.saved? with
    | none => rfl
    | some notes =>
      exact (Resolver.load_cues _ _).trans (Resolver.byIndex_of_sorted (Notes.parse_sorted notes))
  | resumeDue =>
    refine hnone (by simp [he]) ?_
    simp only [Resolver.resumeDue_resolver]
  | player n =>
    refine hnone (by simp [he]) ?_
    by_cases hn : n = .stateChanged .ended
    · simp only [if_pos hn]
      exact Resolver.leave_cues _
    · simp only [if_neg hn]
  | seek target => exact hnone (by simp [he]) (Resolver.leave_cues _)
  | videoChanged => exact hnone (by simp [he]) (Resolver.leave_cues _)

end SessionTurn

/-! ## What a running session keeps up -/

open SessionTurn (editing)

def quietAfter (period : Nat) (e : SessionTurn) (_ : List Char) : Nat := e.time + period

def latest? (turns : List SessionTurn) : Option (List Char) :=
  turns.findSome? SessionTurn.saved?

/-- The newest edit waits in the state, each pass so far has come when its edit was quiet, and the
store and the resolver hold what the newest pass that succeeded has written. -/
structure EditsTold (id : Int) (period : Nat) (store : Store) (cues : List Cue)
    (o : SessionOwner) : Prop where
  id_eq : o.1.id = id
  period_eq : o.1.settings.quietPeriod = period
  edit_eq : o.1.edit = (editing.pending? o.2).map fun e => e.2
  outcomes : ∀ m ∈ o.2, m.after = m.outcome
  onTime : Throughout
    (editing.OnTime (fun m => m.time) (quietAfter period) fun m => m.pass?.isSome) o.2
  written : Throughout (fun m earlier => ∀ notes, m.pass? = some notes →
    ∃ e, editing.pending? earlier = some (e, notes)) o.2
  sessions_eq : o.1.store.sessions = (latest? o.2).elim store.sessions fun notes =>
    (store.put id (Notes.parse notes)).sessions
  cues_eq : o.1.resolver.cues = (latest? o.2).elim cues Notes.parse

/-- The list of a session that is written anew replaces the one before. -/
theorem Store.put_sessions {store q : Store} {id : Int} {earlier : Option (List Char)}
    (h : q.sessions = earlier.elim store.sessions fun notes =>
      (store.put id (Notes.parse notes)).sessions) (cues : List Cue) :
    (q.put id cues).sessions = (store.put id cues).sessions := by
  cases earlier with
  | none => simp [put, h]
  | some notes => simp [put, h]

theorem EditsTold.turn {id : Int} {period : Nat} {store : Store} {cues : List Cue}
    {o : SessionOwner} (h : EditsTold id period store cues o) (now : Nat) (e : SessionEvent)
    (ts : SessionTimers)
    (hwaited : ∀ d notes, editing.pending? o.2 = some (d, notes) → now ≤ quietAfter period d notes)
    (hfired : e = .quiet o.1.generation → ∀ d notes, editing.pending? o.2 = some (d, notes) →
      now = quietAfter period d notes) :
    EditsTold id period store cues ((SessionWork.turn now e (o.1, ts)).outcome,
      SessionWork.turn now e (o.1, ts) :: o.2) := by
  obtain ⟨htime, hevent, hbefore, hafter⟩ := SessionWork.turn_records now e o.1 ts
  generalize SessionWork.turn now e (o.1, ts) = m at *
  -- a pass writes the newest edit, and is the end of its quiet period
  have hpass : ∀ {notes}, m.pass? = some notes →
      ∃ d, editing.pending? o.2 = some (d, notes) ∧ now = quietAfter period d notes := by
    intro notes hp
    obtain ⟨he, hedit⟩ := SessionTurn.pass?_eq_some.mp hp
    rw [hbefore, h.edit_eq] at hedit
    obtain ⟨⟨d, notes'⟩, hd, rfl⟩ := Option.map_eq_some_iff.mp hedit
    rw [hevent, hbefore] at he
    exact ⟨d, hd, hfired he d _ hd⟩
  refine ⟨?_, ?_, ?_, ?_, ⟨⟨fun hp => ?_, ?_⟩, h.onTime⟩, ⟨fun notes hp => ?_, h.written⟩, ?_, ?_⟩
  · change m.before.id = id
    rw [hbefore, h.id_eq]
  · change m.before.settings.quietPeriod = period
    rw [hbefore, h.period_eq]
  · rw [m.outcome_edit, hbefore, h.edit_eq]
    cases he : m.edit? with
    | some notes => simp [Alarm.pending?_opens (show editing.opens m = some notes from he)]
    | none =>
      cases hc : m.pass?.isSome with
      | true => simp [Alarm.pending?_closes (show editing.opens m = none from he) hc]
      | false => simp [Alarm.pending?_passes (show editing.Passes m from ⟨he, hc⟩)]
  · exact List.forall_mem_cons.mpr ⟨hafter, h.outcomes⟩
  · obtain ⟨notes, hp⟩ := Option.isSome_iff_exists.mp hp
    obtain ⟨d, hd, hnow⟩ := hpass hp
    exact ⟨d, notes, hd, htime.trans hnow⟩
  · rw [htime]
    exact hwaited
  · obtain ⟨d, hd, _⟩ := hpass hp
    exact ⟨d, hd⟩
  · change (m.saved?.elim m.before.store fun notes =>
      m.before.store.put m.before.id (Notes.parse notes)).sessions = _
    rw [hbefore, h.id_eq, latest?, List.findSome?_cons]
    cases m.saved? with
    | none => exact h.sessions_eq
    | some notes => exact Store.put_sessions h.sessions_eq _
  · change m.response.resolver.cues = _
    rw [m.response_cues, hbefore, latest?, List.findSome?_cons]
    cases m.saved? with
    | none => exact h.cues_eq
    | some notes => rfl

/-! ### The end of the quiet period -/

namespace SessionTurn

variable {m : SessionTurn} {ts : SessionTimers}

theorem rearranged_of_edit {notes : List Char} (h : m.edit? = some notes) :
    m.rearranged ts = ts.rearm .quiet m.time m.before.settings.quietPeriod
      (.quiet (m.before.generation + 1)) := by
  unfold rearranged
  rw [edit?_eq_some.mp h]

/-- Only an edit changes when the quiet period ends. -/
theorem mem_rearranged_of_not_edit (h : m.edit? = none) {t : Timer SessionTimer SessionEvent}
    (hkey : t.key = .quiet) : t ∈ m.rearranged ts ↔ t ∈ ts := by
  have hrearm : ∀ {delay : Nat} {e : SessionEvent},
      t ∈ ts.rearm .resume m.time delay e ↔ t ∈ ts := by
    intro delay e
    rw [SessionTimers.mem_rearm]
    constructor
    · rintro (⟨ht, _⟩ | rfl)
      · exact ht
      · cases hkey
    · exact fun ht => .inl ⟨ht, by simp [hkey]⟩
  have hcancel : t ∈ Timers.cancel ts .resume ↔ t ∈ ts := by
    simp [SessionTimers.mem_cancel, hkey]
  unfold rearranged
  cases he : m.event with
  | poll =>
    cases m.pause? with
    | none => exact Iff.rfl
    | some seconds => exact hrearm
  | textChanged notes =>
    rw [edit?_eq_some.mpr he] at h
    cases h
  | quiet generation => exact Iff.rfl
  | resumeDue => exact Iff.rfl
  | player n =>
    by_cases hn : n = .stateChanged .ended
    · simpa [hn] using hcancel
    · simp [hn]
  | seek target => exact Iff.rfl
  | videoChanged => exact hcancel

end SessionTurn

namespace SessionLoop

structure EditRest (id : Int) (period : Nat) (store : Store) (cues : List Cue)
    (l : SessionLoop) : Prop where
  past : EditsTold id period store cues l.owner
  awaits : ∀ e notes, editing.pending? l.owner.2 = some (e, notes) →
    l.Awaits .quiet (.quiet l.owner.1.generation) (quietAfter period e notes)
  current : ∀ t ∈ l.timers, t.key = .quiet → t.event = .quiet l.owner.1.generation

structure EditWork (id : Int) (period : Nat) (store : Store) (cues : List Cue)
    (l : SessionLoop) : Prop where
  past : EditsTold id period store cues l.owner
  awaits : ∀ e notes, editing.pending? l.owner.2 = some (e, notes) →
    l.Awaits .quiet (.quiet l.owner.1.generation) (quietAfter period e notes)
  current : ∀ t ∈ l.timers, t.key = .quiet → t.event = .quiet l.owner.1.generation
  known : ∀ generation, .quiet generation ∈ l.inbox → generation ≤ l.owner.1.generation
  /-- Once its event is in the inbox, the end of the quiet period is only timed again by an edit. -/
  untimed : .quiet l.owner.1.generation ∈ l.inbox → ∀ t ∈ l.timers, t.key ≠ .quiet

variable {id : Int} {period : Nat} {store : Store} {cues : List Cue}
  {sent : List (Nat × SessionMessage)} {l : SessionLoop}

theorem EditRest.fire (base : l.AtRest sent) (h : l.EditRest id period store cues) :
    EditWork id period store cues l.fire := by
  -- what fires for a quiet period is of the current generation
  have hfired : ∀ {generation}, .quiet generation ∈ l.fire.inbox →
      generation = l.owner.1.generation ∧ ∃ u ∈ l.timers, u.key = .quiet ∧ u.due l.lag = l.now := by
    intro generation he
    rcases List.mem_append.mp he with he | he
    · exact absurd he (base.notMem_inbox rfl)
    · obtain ⟨u, hu, hue⟩ := List.mem_map.mp he
      obtain ⟨hu, hdue⟩ := base.steady.mem_firing.mp hu
      have hkey := (base.rightful u hu).key_of_quiet hue
      have hcur := (h.current u hu hkey).symm.trans hue
      cases hcur
      exact ⟨rfl, u, hu, hkey, hdue⟩
  have htimer : ∀ t ∈ l.fire.timers, t.key = .quiet → t ∈ l.timers ∧ l.now < t.due l.lag := by
    intro t ht hkey
    rcases base.steady.mem_afterFiring.mp ht with ht | ⟨v, hv, _, hvt⟩
    · exact ht
    · rw [((base.rightful v hv).again hvt).2] at hkey
      cases hkey
  refine ⟨h.past, fun e notes hp => (h.awaits e notes hp).fire base.steady, ?_, ?_, ?_⟩
  · exact fun t ht hkey => h.current t (htimer t ht hkey).1 hkey
  · exact fun generation he => Nat.le_of_eq (hfired he).1
  · intro he t ht hkey
    obtain ⟨_, u, hu, hukey, hdue⟩ := hfired he
    obtain ⟨ht, hlt⟩ := htimer t ht hkey
    cases base.steady.eq_of_key ht hu (hkey.trans hukey.symm)
    omega

/-- The end of the quiet period is still awaited after a turn that does not bring it. -/
theorem EditWork.awaits_heed (base : l.AtWork sent) (h : l.EditWork id period store cues)
    {e : SessionEvent} {es : List SessionEvent} (hes : l.inbox = e :: es) :
    let m := SessionWork.turn l.now e (l.owner.1, l.timers)
    ∀ d notes, editing.pending? (m :: l.owner.2) = some (d, notes) →
      EventLoop.Awaits { l with
        owner := (m.outcome, m :: l.owner.2), timers := m.rearranged l.timers, inbox := es }
        .quiet (.quiet m.outcome.generation) (quietAfter period d notes) := by
  obtain ⟨htime, hevent, hbefore, -⟩ := SessionWork.turn_records l.now e l.owner.1 l.timers
  generalize SessionWork.turn l.now e (l.owner.1, l.timers) = m at *
  dsimp only
  intro d notes hp
  cases he : m.edit? with
  | some edited =>
    obtain ⟨rfl, rfl⟩ : m = d ∧ edited = notes := by
      simpa using (Alarm.pending?_opens (show editing.opens m = some edited from he)).symm.trans hp
    refine .inl ⟨⟨.quiet, m.time + period, .quiet m.outcome.generation, none⟩, ?_, rfl, rfl, rfl, ?_⟩
    · change _ ∈ m.rearranged l.timers
      rw [SessionTurn.rearranged_of_edit he, m.outcome_generation, he, hbefore, h.past.period_eq]
      exact SessionTimers.mem_rearm.mpr (.inr rfl)
    · simp [Timer.due, base.lag_eq, quietAfter]
  | none =>
    cases hc : m.pass?.isSome with
    | true =>
      rw [Alarm.pending?_closes (show editing.opens m = none from he) hc] at hp
      cases hp
    | false =>
      rw [Alarm.pending?_passes (show editing.Passes m from ⟨he, hc⟩)] at hp
      have hgen : m.outcome.generation = l.owner.1.generation := by
        rw [m.outcome_generation, he, hbefore]
        rfl
      rw [hgen]
      rcases h.awaits d notes hp with ⟨t, ht, hkey, hrest⟩ | ⟨hq, hnow⟩
      · exact .inl ⟨t, (SessionTurn.mem_rearranged_of_not_edit he hkey).mpr ht, hkey, hrest⟩
      · rw [hes] at hq
        rcases List.mem_cons.mp hq with hq | hq
        · -- the end of this quiet period would be a pass
          have hpass : m.pass? = some notes := by
            rw [SessionTurn.pass?_eq_some, hevent, hbefore, h.past.edit_eq, hp]
            exact ⟨hq.symm, rfl⟩
          rw [hpass] at hc
          cases hc
        · exact .inr ⟨hq, hnow⟩

theorem EditWork.heed (base : l.AtWork sent) (h : l.EditWork id period store cues)
    {e : SessionEvent} {es : List SessionEvent} (hes : l.inbox = e :: es) :
    EditWork id period store cues { l.heed SessionWork.recording e with inbox := es } := by
  rw [heed_eq]
  have hpast := h.past.turn l.now e l.timers
    (fun d notes hp => (h.awaits d notes hp).le base.steady) (fun he d notes hp => by
      rcases h.awaits d notes hp with ⟨t, ht, hkey, _⟩ | ⟨_, hnow⟩
      · exact absurd hkey (h.untimed (by simp [hes, he]) t ht)
      · exact hnow)
  have hawaits := h.awaits_heed base hes
  obtain ⟨-, -, hbefore, -⟩ := SessionWork.turn_records l.now e l.owner.1 l.timers
  generalize SessionWork.turn l.now e (l.owner.1, l.timers) = m at *
  have hmem : ∀ {f}, f ∈ es → f ∈ l.inbox := by
    intro f hf
    rw [hes]
    exact List.mem_cons_of_mem e hf
  have hgen := m.outcome_generation
  rw [hbefore] at hgen
  cases he : m.edit? with
  | some notes =>
    rw [he, Option.isSome_some, if_pos rfl] at hgen
    refine ⟨hpast, hawaits, fun t ht hkey => ?_, fun generation hg => ?_, fun hg => ?_⟩
    · change t ∈ m.rearranged l.timers at ht
      rw [SessionTurn.rearranged_of_edit he] at ht
      rcases SessionTimers.mem_rearm.mp ht with ⟨_, hne⟩ | rfl
      · exact absurd hkey hne
      · simp [hgen, hbefore]
    · have := h.known generation (hmem hg)
      simp only [hgen]
      omega
    · simp only [hgen] at hg
      have := h.known _ (hmem hg)
      omega
  | none =>
    rw [he, Option.isSome_none, if_neg Bool.false_ne_true] at hgen
    refine ⟨hpast, hawaits, fun t ht hkey => ?_, fun generation hg => ?_, fun hg t ht hkey => ?_⟩
    · simp only [hgen]
      exact h.current t ((SessionTurn.mem_rearranged_of_not_edit he hkey).mp ht) hkey
    · simp only [hgen]
      exact h.known generation (hmem hg)
    · simp only [hgen] at hg
      exact h.untimed (hmem hg) t ((SessionTurn.mem_rearranged_of_not_edit he hkey).mp ht) hkey

theorem EditWork.rest (h : l.EditWork id period store cues) : l.EditRest id period store cues :=
  ⟨h.past, h.awaits, h.current⟩

theorem EditRest.wait (base : l.AtRest sent) (h : l.EditRest id period store cues) (later : Nat) :
    EditRest id period store cues { l with now := later } where
  past := h.past
  awaits e notes hp := (h.awaits e notes hp).wait (base.notMem_inbox rfl) later
  current := h.current

theorem EditRest.send (h : l.EditRest id period store cues) (e : SessionEvent) :
    EditRest id period store cues (l.post e) where
  past := h.past
  awaits d notes hp := (h.awaits d notes hp).post e
  current := h.current

end SessionLoop

namespace EditsTold

variable {id : Int} {period : Nat} {store : Store} {cues : List Cue} {o : SessionOwner}

theorem outage (h : EditsTold id period store cues o) (on : Bool) :
    EditsTold id period store cues (o.1.outage on, o.2) :=
  ⟨h.id_eq, h.period_eq, h.edit_eq, h.outcomes, h.onTime, h.written, h.sessions_eq, h.cues_eq⟩

/-- Each pass writes the notes of an edit that has been quiet for the period. -/
theorem pass_on_time (h : EditsTold id period store cues o) {j : Nat} {m : SessionTurn}
    {notes : List Char} (hj : o.2.reverse[j]? = some m) (hm : m.pass? = some notes) :
    ∃ i e, o.2.reverse[i]? = some e ∧ e.edit? = some notes ∧ m.time = e.time + period ∧
      editing.Ends o.2.reverse i j := by
  have hclose : m.pass?.isSome = true := by simp [hm]
  have hends : ¬ editing.Passes m := fun hpass => by
    have hopen : m.pass?.isSome = false := hpass.2
    rw [hclose] at hopen
    cases hopen
  obtain ⟨i, e, d, later, earlier, hi, he, htime, hpair, heq, hpend⟩ :=
    Alarm.fired_on_time h.onTime hj hclose hends
  obtain ⟨e', hpend'⟩ := h.written.split heq notes hm
  cases hpend.symm.trans hpend'
  exact ⟨i, e, hi, he, htime, hpair⟩

/-- After each edit comes its pass, or another edit until then, or it is still pending. -/
theorem edit_ended (h : EditsTold id period store cues o) {i : Nat} {e : SessionTurn}
    {notes : List Char} (hi : o.2.reverse[i]? = some e) (he : e.edit? = some notes) :
    (∃ j m, o.2.reverse[j]? = some m ∧ editing.Ends o.2.reverse i j ∧
      (m.pass? = some notes ∧ m.time = e.time + period ∨
        m.edit?.isSome = true ∧ m.time ≤ e.time + period)) ∨
    editing.pending? o.2 = some (e, notes) := by
  rcases Alarm.ended_on_time h.onTime hi he with
    ⟨j, m, later, earlier, hj, hpair, hends, hfires, hle, heq, hpend⟩ | hpend
  · refine .inl ⟨j, m, hj, hpair, ?_⟩
    cases hp : m.pass? with
    | some written =>
      obtain ⟨d, hd⟩ := h.written.split heq written hp
      cases hpend.symm.trans hd
      exact .inl ⟨rfl, hfires (by simp [hp])⟩
    | none =>
      refine .inr ⟨?_, hle⟩
      by_contra hne
      rw [Bool.not_eq_true, Option.isSome_eq_false_iff, Option.isNone_iff_eq_none] at hne
      exact hends ⟨hne, by simp [editing, hp]⟩
  · exact .inr hpend

/-- A turn that saves nothing leaves the store as it was, and if it is a pass also the resolver. -/
theorem unsaved (h : EditsTold id period store cues o) {m : SessionTurn} (hm : m ∈ o.2)
    (hsaved : m.saved? = none) :
    m.after.store = m.before.store ∧
      (m.pass?.isSome = true → m.after.resolver = m.before.resolver) := by
  rw [h.outcomes m hm]
  refine ⟨by simp [SessionTurn.outcome, hsaved], fun hp => ?_⟩
  obtain ⟨notes, hp⟩ := Option.isSome_iff_exists.mp hp
  simp [SessionTurn.outcome, SessionTurn.response, (SessionTurn.pass?_eq_some.mp hp).1, hsaved]

/-- Between two passes there is an edit. -/
theorem edit_between (h : EditsTold id period store cues o) {j k : Nat} {m n : SessionTurn}
    (hj : o.2.reverse[j]? = some m) (hk : o.2.reverse[k]? = some n) (hlt : j < k)
    (hm : m.pass?.isSome = true) (hn : n.pass?.isSome = true) :
    ∃ i e, j < i ∧ i < k ∧ o.2.reverse[i]? = some e ∧ e.edit?.isSome = true := by
  obtain ⟨notes, hn⟩ := Option.isSome_iff_exists.mp hn
  obtain ⟨i, e, hi, he, _, hpair⟩ := h.pass_on_time hk hn
  refine ⟨i, e, ?_, hpair.lt, hi, by simp [he]⟩
  by_contra hle
  rcases Nat.lt_or_eq_of_le (Nat.le_of_not_lt hle) with hij | rfl
  · have hpass := hpair.between j m hij hlt hj
    rw [show m.pass?.isSome = false from hpass.2] at hm
    cases hm
  · cases hi.symm.trans hj
    rw [SessionTurn.pass?_of_edit he] at hm
    cases hm

end EditsTold

theorem editLaw (id : Int) (period : Nat) (store : Store) (cues : List Cue) :
    SessionLaw (fun sent l => l.AtRest sent ∧ l.EditRest id period store cues)
      (fun sent l => l.AtWork sent ∧ l.EditWork id period store cues)
      (fun t _ o => EditsTold id period store cues o ∧
        ∀ e notes, editing.pending? o.2 = some (e, notes) → t ≤ quietAfter period e notes) where
  regime sent := (SessionLoop.regime sent).refine
    (fun base h => h.fire base) (fun base h hes => h.heed base hes) (fun _ h _ => h.rest)
    (fun base h _ _ _ => h.wait base _)
  send m h := ⟨h.1.send m, h.2.send m.event⟩
  outage on h := ⟨h.1.outage on, h.2.past.outage on, h.2.awaits, h.2.current⟩
  close h := ⟨h.2.past, fun e notes hp => (h.2.awaits e notes hp).le h.1.steady⟩
  closed_outage on h := ⟨h.1.outage on, h.2⟩

/-- What the store lists for a session that was last written with these cues, if at all. -/
theorem Store.listing_of_sessions {store q : Store} {id : Int} {latest : Option (List Char)}
    (h : q.sessions = latest.elim store.sessions fun notes =>
      (store.put id (Notes.parse notes)).sessions) :
    q.listing id = latest.elim (store.listing id) Notes.parse := by
  cases latest with
  | none => simp [listing, written, h]
  | some notes =>
    have hwritten : q.written id = Notes.parse notes := by simp [written, h, put]
    rw [listing, hwritten]
    exact Resolver.byIndex_of_sorted (Notes.parse_sorted notes)

namespace Chronicle

theorem editRest_opening (id : Int) (settings : Settings) (player : SimulatedPlayer)
    (store : Store) : SessionLoop.EditRest id settings.quietPeriod store
      ((store.load id).toOption.getD []) (opening id settings player store) := by
  rw [opening_eq]
  refine ⟨⟨rfl, rfl, rfl, by simp, trivial, trivial, rfl, ?_⟩, fun e notes hp => ?_, ?_⟩
  · cases hload : store.load id with
    | error e => rfl
    | ok cues =>
      have hsorted : cues.Pairwise fun c d => c.index ≤ d.index := by
        unfold Store.load Store.list at hload
        split at hload
        · cases hload
        · cases hload
          exact Resolver.byIndex_sorted _
      simp [Except.toOption, Resolver.fresh_eq, Resolver.byIndex_of_sorted hsorted, latest?]
  · cases hp
  · intro t ht hkey
    simp only [Session.polls] at ht
    split at ht
    · cases ht
    · rw [List.mem_singleton.mp ht] at hkey
      cases hkey

/-- What the law says of a chronicle, whether the session runs or not. -/
theorem Obeys.edits {c : Chronicle} {id : Int} {period : Nat} {store : Store} {cues : List Cue}
    (h : c.Obeys (fun sent l => l.AtRest sent ∧ l.EditRest id period store cues)
      (fun t _ o => EditsTold id period store cues o ∧
        ∀ e notes, editing.pending? o.2 = some (e, notes) → t ≤ quietAfter period e notes)) :
    EditsTold id period store cues c.loop.owner ∧
      ∀ e notes, editing.pending? c.loop.owner.2 = some (e, notes) →
        match c.closedAt with
        | some t => t ≤ e.time + period
        | none => c.now ≤ e.time + period ∧ (c.loop.quiet = true → c.now < e.time + period) := by
  unfold Obeys at h
  cases hc : c.closedAt with
  | some t =>
    rw [hc] at h
    exact h.1
  | none =>
    rw [hc] at h
    obtain ⟨base, h⟩ := h
    exact ⟨h.past, fun e notes hp =>
      ⟨(h.awaits e notes hp).le base.steady, (h.awaits e notes hp).lt_of_quiet⟩⟩

/-- A session writes notes to its store only when the edit that brought them has been quiet for the
quiet period, and each such edit unless another edit is handled before the end of that period is.
The store and the resolver hold the cues of the newest notes written; a pass that fails changes
neither, and the next pass is that of a later edit. -/
theorem passes_mirror_edits (id : Int) (settings : Settings) (player : SimulatedPlayer)
    (store : Store) (acts : List SessionAct) :
    let c := (start id settings player store).run acts
    let period := settings.quietPeriod
    c.session = (Session.launch id settings player store 0).run acts ∧
    (c.handled <+: c.sent ∧ (c.closedAt = none → (c.act .settle).handled = c.sent)) ∧
    (∀ j m notes, c.turns[j]? = some m → m.pass? = some notes →
      ∃ i e, c.turns[i]? = some e ∧ e.edit? = some notes ∧ m.time = e.time + period ∧
        editing.Ends c.turns i j) ∧
    (∀ i e notes, c.turns[i]? = some e → e.edit? = some notes →
      (∃ j m, c.turns[j]? = some m ∧ editing.Ends c.turns i j ∧
        (m.pass? = some notes ∧ m.time = e.time + period ∨
          m.edit?.isSome = true ∧ m.time ≤ e.time + period)) ∨
      match c.closedAt with
      | some t => t ≤ e.time + period
      | none => c.now ≤ e.time + period ∧ (c.loop.quiet = true → c.now < e.time + period)) ∧
    (c.act .settle).loop.quiet = true ∧
    c.session.state.store.listing id =
      (latest? c.turns.reverse).elim (store.listing id) Notes.parse ∧
    c.session.state.resolver.cues =
      (latest? c.turns.reverse).elim ((store.load id).toOption.getD []) Notes.parse ∧
    (∀ m ∈ c.turns, m.saved? = none →
      m.after.store = m.before.store ∧
        (m.pass?.isSome = true → m.after.resolver = m.before.resolver)) ∧
    (∀ (j k : Nat) (m n : SessionTurn), c.turns[j]? = some m → c.turns[k]? = some n → j < k →
      m.pass?.isSome = true → n.pass?.isSome = true →
        ∃ i e, j < i ∧ i < k ∧ c.turns[i]? = some e ∧ e.edit?.isSome = true) := by
  intro c period
  have hobeys : c.Obeys _ _ := obeys_run
    (editLaw id settings.quietPeriod store ((store.load id).toOption.getD []))
    ⟨SessionLoop.atRest_opening id settings player store, editRest_opening id settings player store⟩
    acts
  obtain ⟨hpast, hbound⟩ := hobeys.edits
  have hturns : c.turns.reverse = c.loop.owner.2 := List.reverse_reverse _
  have hstate : c.session.state = c.loop.owner.1 := rfl
  rw [hturns, hstate]
  refine ⟨?_, handled_sent id settings player store acts, fun j m notes => hpast.pass_on_time,
    fun i e notes hi he => ?_, hobeys.settle_quiet (editLaw _ _ _ _),
    Store.listing_of_sessions hpast.sessions_eq, hpast.cues_eq,
    fun m hm => hpast.unsaved (List.mem_reverse.mp hm), fun j k m n => hpast.edit_between⟩
  · rw [session_run, session_start]
  · rcases hpast.edit_ended hi he with hended | hpend
    · exact .inl hended
    · exact .inr (hbound e notes hpend)

def someNotes : List Char := "[00:00:01.000-00:00:04.000,100%,1.00x]".toList

def blank : Chronicle :=
  start 1 { quietPeriod := 500 } (.playingFrom 60 0) (Store.empty.put 1 [])

theorem blank_eq : blank =
    { loop :=
        { timers := [⟨.poll, 0, .poll, some 100⟩]
          owner :=
            ({ id := 1, settings := { quietPeriod := 500 }, player := .playingFrom 60 0
               store := Store.empty.put 1 [], resolver := { tolerances := {} } }, []) } } := by
  rw [blank, start, opening_of_sorted { quietPeriod := 500 } _ rfl List.Pairwise.nil]
  rfl

/-- Notes that are quiet for half a second are written at its end. -/
theorem blank_writes :
    let c := blank.run [.send (.edit someNotes), .advance 900]
    ∃ i j e m, c.turns[i]? = some e ∧ e.edit? = some someNotes ∧ c.turns[j]? = some m ∧
      m.pass? = some someNotes ∧ m.time = e.time + 500 ∧ editing.Ends c.turns i j := by
  intro c
  have hturn : (c.turns[6]?.map fun m => m.pass?) = some (some someNotes) := by
    simp only [c, blank_eq]
    decide +kernel
  obtain ⟨m, hm, hpass⟩ := Option.map_eq_some_iff.mp hturn
  obtain ⟨_, _, hpasses, _⟩ := passes_mirror_edits 1 { quietPeriod := 500 } (.playingFrom 60 0)
    (Store.empty.put 1 []) [.send (.edit someNotes), .advance 900]
  obtain ⟨i, e, hi, he, htime, hends⟩ := hpasses 6 m someNotes hm hpass
  exact ⟨i, 6, e, m, hi, he, hm, hpass, htime, hends⟩

/-- An edit at the very instant at which another one has been quiet long enough takes its place if
it is handled first: the earlier notes are never written. -/
theorem blank_never_writes :
    let c := blank.run
      [.settle, .send (.edit someNotes), .approach 500, .send (.edit []), .advance 400]
    ∃ e, c.turns[1]? = some e ∧ e.edit? = some someNotes ∧
      (∀ m ∈ c.turns.drop 2, m.edit?.isSome = true → e.time + 500 ≤ m.time) ∧
      c.now = e.time + 900 ∧ c.closedAt = none ∧ c.loop.quiet = true ∧
      ∀ m ∈ c.turns, m.pass? = none := by
  intro c
  have hevaluated : (c.turns[1]?.map fun e => (e.edit?, e.time)) = some (some someNotes, 0) ∧
      ((c.turns.drop 2).all fun m => !m.edit?.isSome || 500 ≤ m.time) = true ∧
      (c.turns.all fun m => m.pass?.isNone) = true ∧
      c.now = 900 ∧ c.closedAt = none ∧ c.loop.quiet = true := by
    simp only [c, blank_eq]
    decide +kernel
  obtain ⟨hturns, hlater, hpass, hend⟩ := hevaluated
  obtain ⟨e, he, hval⟩ := Option.map_eq_some_iff.mp hturns
  obtain ⟨hedit, htime⟩ := Prod.mk.inj hval
  refine ⟨e, he, hedit, fun m hm hsome => ?_, by rw [htime]; exact hend.1, hend.2.1, hend.2.2,
    fun m hm => ?_⟩
  · have := List.all_eq_true.mp hlater m hm
    rw [htime]
    simpa [hsome] using this
  · exact Option.isNone_iff_eq_none.mp (List.all_eq_true.mp hpass m hm)

end Chronicle

end PlaybackCues
