import PlaybackCues.Proofs.Notes.Numbering
import PlaybackCues.Proofs.Resolver.Runs

set_option autoImplicit false

/-!
# What a store lists

A run of a store is a sequence of calls for any sessions, between which the store goes offline and
comes back. After a run a session lists what the last write to it left that found the store online:
the cues of the notes, or the cues that were handed over in the order of their indexes, where cues
of one index keep their order.
-/
namespace PlaybackCues

/-! ## The order of a listing -/

/-- The same cues in the order of their indexes; those of one index stand as they did. -/
structure StablySorted (cues sorted : List Cue) : Prop where
  perm : sorted.Perm cues
  ordered : sorted.Pairwise fun c d => c.index ≤ d.index
  stable : ∀ k, sorted.filter (fun c => c.index = k) = cues.filter fun c => c.index = k

theorem byIndex_perm (cues : List Cue) : (byIndex cues).Perm cues := List.mergeSort_perm cues _

/-- The cues of one index are in order already, so sorting keeps their list. -/
theorem byIndex_filter (cues : List Cue) (k : Nat) :
    (byIndex cues).filter (fun c => c.index = k) = cues.filter fun c => c.index = k := by
  have hsame : (cues.filter fun c => c.index = k).Pairwise
      fun c d => decide (c.index ≤ d.index) = true := by
    refine List.pairwise_of_forall_mem_list fun c hc d hd => ?_
    have hck := of_decide_eq_true (List.mem_filter.mp hc).2
    have hdk := of_decide_eq_true (List.mem_filter.mp hd).2
    exact decide_eq_true (by omega)
  have hsub : (cues.filter fun c => c.index = k).Sublist (byIndex cues) :=
    List.sublist_mergeSort
      (fun a b c hab hbc => by simp only [decide_eq_true_eq] at *; omega)
      (fun a b => by simp only [Bool.or_eq_true, decide_eq_true_eq]; omega)
      hsame List.filter_sublist
  have hsub' := hsub.filter fun c => c.index = k
  rw [List.filter_filter] at hsub'
  simp only [Bool.and_self] at hsub'
  exact (hsub'.eq_of_length ((byIndex_perm cues).filter _).length_eq.symm).symm

theorem stablySorted_byIndex (cues : List Cue) : StablySorted cues (byIndex cues) :=
  ⟨byIndex_perm cues, Resolver.byIndex_sorted cues, byIndex_filter cues⟩

/-- A cue of the index stays in front of what else belongs to that index. -/
theorem filter_head {c : Cue} {cues : List Cue} {k : Nat} (h : c.index = k) :
    (c :: cues).filter (fun d => d.index = k) = c :: cues.filter fun d => d.index = k :=
  List.filter_cons_of_pos (decide_eq_true h)

/-- There is one stable order only. -/
theorem StablySorted.unique {cues first second : List Cue} (h : StablySorted cues first)
    (h' : StablySorted cues second) : first = second := by
  have hfilter : ∀ k, first.filter (fun c => c.index = k) = second.filter fun c => c.index = k :=
    fun k => (h.stable k).trans (h'.stable k).symm
  have hordered := h.ordered
  have hordered' := h'.ordered
  clear h h'
  induction first generalizing second with
  | nil =>
    cases second with
    | nil => rfl
    | cons d second =>
      have hd := hfilter d.index
      rw [filter_head rfl] at hd
      cases hd
  | cons c first ih =>
    cases second with
    | nil =>
      have hc := hfilter c.index
      rw [filter_head rfl] at hc
      cases hc
    | cons d second =>
      obtain ⟨hle, htail⟩ := List.pairwise_cons.mp hordered
      obtain ⟨hle', htail'⟩ := List.pairwise_cons.mp hordered'
      -- each of the two heads occurs in the other list, so neither index is the larger one
      have hmem : c ∈ d :: second := by
        have hc : c ∈ (c :: first).filter fun e => e.index = c.index := by simp
        rw [hfilter] at hc
        exact (List.mem_filter.mp hc).1
      have hmem' : d ∈ c :: first := by
        have hd : d ∈ (d :: second).filter fun e => e.index = d.index := by simp
        rw [← hfilter] at hd
        exact (List.mem_filter.mp hd).1
      have hindex : d.index = c.index := by
        rcases List.mem_cons.mp hmem with rfl | hc
        · rfl
        · rcases List.mem_cons.mp hmem' with rfl | hd
          · rfl
          · exact Nat.le_antisymm (hle' c hc) (hle d hd)
      have hheads := hfilter c.index
      rw [filter_head rfl, filter_head hindex] at hheads
      obtain ⟨rfl, _⟩ := List.cons.inj hheads
      refine congrArg (c :: ·) (ih (fun k => ?_) htail htail')
      have hk := hfilter k
      by_cases h : c.index = k
      · rw [filter_head h, filter_head h] at hk
        exact (List.cons.inj hk).2
      · rwa [List.filter_cons_of_neg (by simpa using h),
          List.filter_cons_of_neg (by simpa using h)] at hk

/-! ## Runs -/

inductive StoreRequest where
  | list
  | load
  | replace (cues : List Cue)
  | reconcile (notes : List Char)

inductive StoreAct where
  | outage (on : Bool)
  | call (session : Int) (request : StoreRequest)

namespace StoreRequest

def writes : StoreRequest → Bool
  | .replace _ | .reconcile _ => true
  | .list | .load => false

def cues : StoreRequest → List Cue
  | .replace cues => cues
  | .reconcile notes => Notes.parse notes
  | .list | .load => []

end StoreRequest

namespace Store

/-- The store after a call, and the cues that the call gives back, if it gives any. -/
def serve (s : Store) (session : Int) : StoreRequest → Except StoreError (Store × Option (List Cue))
  | .list => (s.list session).map fun cues => (s, some cues)
  | .load => (s.load session).map fun cues => (s, some cues)
  | .replace cues => (s.replace session cues).map fun s => (s, none)
  | .reconcile notes => (s.reconcile session notes).map fun (s, cues) => (s, some cues)

def act (s : Store) : StoreAct → Store
  | .outage on => { s with offline := on }
  | .call session request => ((s.serve session request).map Prod.fst).toOption.getD s

def run (s : Store) (acts : List StoreAct) : Store := acts.foldl act s

/-- The last write to a session that finds the store online. -/
def lastWrite? (session : Int) (offline : Bool) : List StoreAct → Option StoreRequest
  | [] => none
  | .outage on :: acts => lastWrite? session on acts
  | .call other request :: acts =>
    (lastWrite? session offline acts).or
      (if other = session ∧ request.writes ∧ ¬ offline then some request else none)

def Lists : Option StoreRequest → List Cue → Prop
  | some (.reconcile notes), cues => cues = Notes.parse notes
  | some (.replace written), cues => StablySorted written cues
  | _, cues => cues = []

variable {s : Store} {session other : Int}

theorem lookup_filter_ne {key other : Int} (h : other ≠ key) (entries : List (Int × List Cue)) :
    (entries.filter fun entry => entry.1 ≠ key).lookup other = entries.lookup other := by
  induction entries with
  | nil => rfl
  | cons entry entries ih =>
    obtain ⟨k, cues⟩ := entry
    by_cases hk : k = key
    · have hne : (other == k) = false := beq_eq_false_iff_ne.mpr (hk ▸ h)
      simp only [List.filter_cons, hk, ne_eq, not_true_eq_false, decide_false, Bool.false_eq_true,
        if_false, List.lookup_cons, hk ▸ hne, ← ih]
    · simp only [List.filter_cons, hk, ne_eq, not_false_eq_true, decide_true, if_true,
        List.lookup_cons, ← ih]

theorem written_put (s : Store) (session other : Int) (cues : List Cue) :
    (s.put session cues).written other = if other = session then cues else s.written other := by
  unfold put written
  by_cases h : other = session
  · simp [h]
  · have hne : (other == session) = false := beq_eq_false_iff_ne.mpr h
    simp only [List.lookup_cons, hne, lookup_filter_ne h, if_neg h]

/-! ## Calls -/

theorem serve_of_offline (h : s.offline = true) (session : Int) (request : StoreRequest) :
    s.serve session request = .error outage := by
  cases request <;> simp [serve, list, load, replace, reconcile, h, Except.map]

theorem serve_list (h : s.offline = false) :
    s.serve session .list = .ok (s, some (s.listing session)) := by
  simp [serve, list, h, Except.map]

/-- A listing is sorted already, so sorting it once more changes nothing. -/
theorem serve_load (h : s.offline = false) :
    s.serve session .load = .ok (s, some (s.listing session)) := by
  have hsorted : byIndex (s.listing session) = s.listing session :=
    Resolver.byIndex_of_sorted (Resolver.byIndex_sorted _)
  simp [serve, load, list, h, Except.map, hsorted]

theorem serve_replace (h : s.offline = false) (cues : List Cue) :
    s.serve session (.replace cues) = .ok (s.put session cues, none) := by
  simp [serve, replace, h, Except.map]

theorem serve_reconcile (h : s.offline = false) (notes : List Char) :
    s.serve session (.reconcile notes) =
      .ok (s.put session (Notes.parse notes), some (Notes.parse notes)) := by
  simp [serve, reconcile, replace, h, Except.map]

theorem serve_fails_iff {request : StoreRequest} :
    (∃ e, s.serve session request = .error e) ↔ s.offline = true := by
  cases h : s.offline with
  | true => exact iff_of_true ⟨outage, serve_of_offline h session request⟩ rfl
  | false =>
    refine iff_of_false ?_ nofun
    rintro ⟨e, he⟩
    cases request with
    | list => cases he.symm.trans (serve_list h)
    | load => cases he.symm.trans (serve_load h)
    | replace cues => cases he.symm.trans (serve_replace h cues)
    | reconcile notes => cases he.symm.trans (serve_reconcile h notes)

theorem online_of_served {request : StoreRequest} {reply : Store × Option (List Cue)}
    (h : s.serve session request = .ok reply) : s.offline = false := by
  cases hoff : s.offline with
  | true => cases h.symm.trans (serve_of_offline hoff session request)
  | false => rfl

theorem act_of_failed {request : StoreRequest} {e : StoreError}
    (h : s.serve session request = .error e) : s.act (.call session request) = s := by
  simp [act, h, Except.map, Except.toOption]

/-- What a call makes of a store: only a write that finds the store online changes anything. -/
theorem act_call (s : Store) (session : Int) (request : StoreRequest) :
    s.act (.call session request) =
      if request.writes ∧ s.offline = false then s.put session request.cues else s := by
  cases h : s.offline with
  | true => simp [act_of_failed (serve_of_offline h session request)]
  | false =>
    cases request with
    | list => simp [act, serve_list h, Except.map, Except.toOption, StoreRequest.writes]
    | load => simp [act, serve_load h, Except.map, Except.toOption, StoreRequest.writes]
    | replace cues =>
      simp [act, serve_replace h, Except.map, Except.toOption, StoreRequest.writes,
        StoreRequest.cues]
    | reconcile notes =>
      simp [act, serve_reconcile h, Except.map, Except.toOption, StoreRequest.writes,
        StoreRequest.cues]

theorem act_call_offline (s : Store) (session : Int) (request : StoreRequest) :
    (s.act (.call session request)).offline = s.offline := by
  rw [act_call]
  split <;> rfl

theorem act_call_written (s : Store) (session other : Int) (request : StoreRequest) :
    (s.act (.call other request)).written session =
      if other = session ∧ request.writes ∧ s.offline = false then request.cues
      else s.written session := by
  rw [act_call]
  by_cases hwrite : request.writes ∧ s.offline = false
  · simp [hwrite, written_put, eq_comm]
  · simp [hwrite]

/-- Calls for one session do not change what another one lists. -/
theorem act_call_list (s : Store) {session other : Int} (h : other ≠ session)
    (request : StoreRequest) :
    (s.act (.call session request)).list other = s.list other := by
  simp [list, listing, act_call_offline, act_call_written, h.symm]

/-! ## What is stored after a run -/

theorem run_written (s : Store) (acts : List StoreAct) (session : Int) :
    (s.run acts).written session =
      ((lastWrite? session s.offline acts).map StoreRequest.cues).getD (s.written session) := by
  induction acts generalizing s with
  | nil => rfl
  | cons a acts ih =>
    change ((s.act a).run acts).written session = _
    rw [ih]
    cases a with
    | outage on => rfl
    | call other request =>
      rw [act_call_offline, act_call_written, lastWrite?]
      cases lastWrite? session s.offline acts with
      | some later => rfl
      | none =>
        simp only [Option.none_or, Option.map_none, Option.getD_none, Bool.not_eq_true]
        split <;> rfl

theorem lists_cues (write? : Option StoreRequest) :
    Lists write? (byIndex ((write?.map StoreRequest.cues).getD [])) := by
  match write? with
  | some (.reconcile notes) => exact Resolver.byIndex_of_sorted (Notes.parse_sorted notes)
  | some (.replace cues) => exact stablySorted_byIndex cues
  | some .list | some .load | none => exact List.mergeSort_nil

theorem run_listing (acts : List StoreAct) (session : Int) :
    Lists (lastWrite? session false acts) ((empty.run acts).listing session) := by
  rw [listing, run_written]
  exact lists_cues _

/-- After any run, a call fails exactly when the store is offline, and then changes nothing. A pass
over some notes gives back their cues. A session lists and loads what the last write to it that
succeeded has left: the cues of its notes, or the cues it was handed in the stable order of their
indexes. No call changes what another session lists. -/
theorem store_lists_last_write (acts : List StoreAct) (session : Int) :
    (∀ request, (∃ e, (empty.run acts).serve session request = .error e) ↔
      (empty.run acts).offline = true) ∧
    (∀ request e, (empty.run acts).serve session request = .error e →
      (empty.run acts).act (.call session request) = empty.run acts) ∧
    (∀ notes after answer,
      (empty.run acts).serve session (.reconcile notes) = .ok (after, answer) →
      answer = some (Notes.parse notes)) ∧
    (∀ request after answer, request.writes = false →
      (empty.run acts).serve session request = .ok (after, answer) →
      after = empty.run acts ∧
        ∃ cues, answer = some cues ∧ Lists (lastWrite? session false acts) cues) ∧
    ∀ request other, other ≠ session →
      ((empty.run acts).act (.call session request)).list other = (empty.run acts).list other := by
  have hlists := run_listing acts session
  generalize empty.run acts = s at hlists ⊢
  refine ⟨fun _ => serve_fails_iff, fun _ _ => act_of_failed, ?_, ?_,
    fun request _ hne => s.act_call_list hne request⟩
  · intro notes after answer hok
    cases hok.symm.trans (serve_reconcile (online_of_served hok) notes)
    rfl
  · intro request after answer hread hok
    have honline := online_of_served hok
    have hlisting : s.serve session request = .ok (s, some (s.listing session)) := by
      cases request with
      | list => exact serve_list honline
      | load => exact serve_load honline
      | replace cues => cases hread
      | reconcile notes => cases hread
    cases hok.symm.trans hlisting
    exact ⟨rfl, _, rfl, hlists⟩

def cueAt (index offset : Nat) : Cue := CueSpec.place ⟨1, 2, 50, 1, .natural⟩ index offset

def unorderedCues : List Cue := [cueAt 7 0, cueAt 3 40, cueAt 7 20]

def interruptedRun : List StoreAct :=
  [.call 1 (.replace unorderedCues), .call 2 (.reconcile []), .outage true,
    .call 1 (.reconcile []), .outage false]

theorem interruptedRun_lists : (empty.run interruptedRun).serve 1 .load =
    .ok (empty.run interruptedRun, some [cueAt 3 40, cueAt 7 0, cueAt 7 20]) := by
  obtain ⟨hfails, _, _, hread, _⟩ := store_lists_last_write interruptedRun 1
  cases hload : (empty.run interruptedRun).serve 1 .load with
  | error e => cases (hfails .load).mp ⟨e, hload⟩
  | ok reply =>
    obtain ⟨after, answer⟩ := reply
    obtain ⟨rfl, cues, rfl, hlists⟩ := hread .load after answer rfl hload
    have hsorted : StablySorted unorderedCues cues := hlists
    have hexplicit : StablySorted unorderedCues [cueAt 3 40, cueAt 7 0, cueAt 7 20] := by
      refine ⟨List.Perm.swap .., by simp [cueAt, CueSpec.place], fun k => ?_⟩
      by_cases h : k = 3
      · simp [unorderedCues, cueAt, CueSpec.place, h]
      · simp [unorderedCues, cueAt, CueSpec.place, List.filter_cons, Ne.symm h]
    rw [hsorted.unique hexplicit]

end Store

end PlaybackCues
