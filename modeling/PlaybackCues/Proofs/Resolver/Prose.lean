import PlaybackCues.Proofs.Notes.Numbering
import PlaybackCues.Proofs.Notes.Rewriting
import PlaybackCues.Proofs.Resolver.Listing

set_option autoImplicit false

/-!
# Edits of the prose

No rule of the resolver reads where in the text a cue stands: taking the offsets away commutes with
every action. The cues of two texts with the same canonical texts differ in nothing but their
offsets, ids included. So loading the cues of the second text over those of the first sends nothing
and is never noticed later, whatever the resolver is doing at that moment.
-/
namespace PlaybackCues

/-! ## Cues without offsets -/

namespace Notes

/-- The canonical texts of the cues of a text say all about them but their offsets. -/
theorem parse_eq_of_canonical {old new : List Char}
    (h : ((parse old).map fun c => c.canonical) = (parse new).map fun c => c.canonical) :
    (parse old).map Cue.atOrigin = (parse new).map Cue.atOrigin := by
  have hrewrite : rewrite old = rewrite new := congrArg (['\n'].intercalate ·) h
  obtain ⟨es, hes⟩ := exists_entries old
  obtain ⟨fs, hfs⟩ := exists_entries new
  have htexts : es.map Entry.text = fs.map Entry.text := by
    rw [← numbered_canonical 0, ← hes, canonical_atOrigin, h, ← canonical_atOrigin, hfs,
      numbered_canonical]
  rw [hes, hfs, ← (Lists.lines es).parse, htexts, (Lists.lines fs).parse]

end Notes

def Action.atOrigin : Action → Action
  | .load cues => .load (cues.map Cue.atOrigin)
  | a => a

namespace Resolver

def atOrigin (r : Resolver) : Resolver := { r with cues := r.cues.map Cue.atOrigin }

end Resolver

def Response.atOrigin (a : Response) : Response := ⟨a.resolver.atOrigin, a.directives⟩

theorem Response.andThen_atOrigin {a : Response} {f g : Resolver → Response}
    (h : (f a.resolver).atOrigin = g a.resolver.atOrigin) :
    (a.andThen f).atOrigin = a.atOrigin.andThen g := by
  change Response.mk (f a.resolver).atOrigin.resolver (a.directives ++ (f a.resolver).atOrigin.directives) = _
  rw [h]
  rfl

namespace Resolver

def Settling.atOrigin : Settling → Settling
  | .waiting r => .waiting r.atOrigin
  | .done r => .done r.atOrigin

def Onward.atOrigin : Onward → Onward
  | .stop a => .stop a.atOrigin
  | .idle a => .idle a.atOrigin

variable (r : Resolver)

/-! ## Looking up cues -/

theorem find?_atOrigin (id : Uuid) : r.atOrigin.find? id = (r.find? id).map Cue.atOrigin := by
  simp only [find?, atOrigin, List.find?_map]
  rfl

theorem successor?_atOrigin (c : Cue) :
    r.atOrigin.successor? c.atOrigin = (r.successor? c).map Cue.atOrigin := by
  simp only [successor?, atOrigin, List.find?_map]
  rfl

theorem due?_atOrigin (now : Seconds) : r.atOrigin.due? now = (r.due? now).map Cue.atOrigin := by
  simp only [due?, atOrigin, List.find?_map]
  rfl

theorem passed_atOrigin (now : Seconds) : r.atOrigin.passed now = r.passed now := by
  simp only [passed, atOrigin, List.filter_map, List.map_map]
  rfl

theorem skipped_atOrigin (c next : Cue) :
    r.atOrigin.skipped c.atOrigin next.atOrigin = r.skipped c next := by
  simp only [skipped, atOrigin, List.filter_map, List.map_map]
  rfl

theorem overtaken_atOrigin (c : Cue) (now : Seconds) :
    r.atOrigin.overtaken c.atOrigin now = r.overtaken c now := by
  simp only [overtaken, atOrigin, List.filter_map, List.map_map]
  rfl

/-! ## Leaving the active cue -/

theorem leave_atOrigin : r.leave.atOrigin = r.atOrigin.leave :=
  apply_ite Response.atOrigin _ _ _

theorem clear_atOrigin : r.clear.atOrigin = r.atOrigin.clear := by
  unfold clear
  rw [← leave_atOrigin]
  exact Response.andThen_atOrigin rfl

theorem moveTo_atOrigin (now : Seconds) : (r.moveTo now).atOrigin = r.atOrigin.moveTo now := by
  unfold moveTo
  rw [← leave_atOrigin]
  refine Response.andThen_atOrigin ?_
  rw [passed_atOrigin]
  rfl

theorem detect_atOrigin (now : Seconds) : (r.detect now).atOrigin = r.atOrigin.detect now := by
  refine (apply_ite Response.atOrigin _ _ _).trans (if_congr Iff.rfl r.clear_atOrigin ?_)
  exact (apply_ite Response.atOrigin _ _ _).trans (if_congr Iff.rfl (r.moveTo_atOrigin now) rfl)

theorem settle_atOrigin (now : Seconds) : (r.settle now).atOrigin = r.atOrigin.settle now := by
  have hflight : r.atOrigin.flight = r.flight := rfl
  unfold settle
  rw [hflight]
  cases r.flight with
  | none => rfl
  | some f =>
    refine (apply_ite Settling.atOrigin _ _ _).trans (if_congr Iff.rfl rfl ?_)
    exact apply_ite Settling.atOrigin _ _ _

/-! ## The active cue -/

theorem chain_atOrigin (c next : Cue) (now : Seconds) :
    (r.chain c next now).atOrigin = r.atOrigin.chain c.atOrigin next.atOrigin now := by
  unfold chain
  rw [skipped_atOrigin]
  by_cases hforward : c.stop < next.start
  · have hforward' : c.atOrigin.stop < next.atOrigin.start := hforward
    simp only [if_pos hforward, if_pos hforward']
    rfl
  · have hforward' : ¬ c.atOrigin.stop < next.atOrigin.start := hforward
    simp only [if_neg hforward, if_neg hforward']
    rfl

theorem expire_atOrigin (c : Cue) (now : Seconds) :
    (r.expire c now).atOrigin = r.atOrigin.expire c.atOrigin now := by
  have hmode : c.atOrigin.mode = c.mode := rfl
  rw [expire_eq, expire_eq, hmode]
  cases c.mode with
  | natural => rfl
  | jump =>
    have hfinish : r.atOrigin.finish c.atOrigin = (r.finish c).atOrigin := rfl
    dsimp only
    rw [hfinish, successor?_atOrigin]
    cases (r.finish c).successor? c with
    | none => rfl
    | some next => exact congrArg Onward.stop ((r.finish c).chain_atOrigin c next now)
  | pause seconds => rfl

theorem continueActive_atOrigin (s : Snapshot) :
    (r.continueActive s).atOrigin = r.atOrigin.continueActive s := by
  have hactive : r.atOrigin.active = r.active := rfl
  unfold continueActive
  rw [hactive]
  cases r.active with
  | none => rfl
  | some id =>
    dsimp only
    rw [find?_atOrigin]
    cases r.find? id with
    | none => rfl
    | some c =>
      exact (apply_ite Onward.atOrigin _ _ _).trans
        (if_congr Iff.rfl rfl (r.expire_atOrigin c s.time))

/-! ## Outside the cues -/

theorem trackDefaults_atOrigin (s : Snapshot) :
    (r.trackDefaults s).atOrigin = r.atOrigin.trackDefaults s := by
  have hrestore : r.atOrigin.restore = r.restore := rfl
  unfold trackDefaults
  rw [hrestore]
  cases r.restore with
  | none => rfl
  | some wanted => exact apply_ite Response.atOrigin _ _ _

theorem activate_atOrigin (now : Seconds) :
    (r.activate now).atOrigin = r.atOrigin.activate now := by
  unfold activate
  rw [due?_atOrigin]
  cases r.due? now with
  | none => rfl
  | some c =>
    rw [Option.map_some]
    dsimp only
    rw [overtaken_atOrigin]
    rfl

theorem idle_atOrigin (quiet : Bool) (s : Snapshot) :
    (r.idle quiet s).atOrigin = r.atOrigin.idle quiet s := by
  have htrack : (if quiet then r.trackDefaults s else ⟨r, []⟩ : Response).atOrigin =
      if quiet then r.atOrigin.trackDefaults s else ⟨r.atOrigin, []⟩ :=
    (apply_ite Response.atOrigin _ _ _).trans (if_congr Iff.rfl (r.trackDefaults_atOrigin s) rfl)
  unfold idle
  rw [← htrack]
  refine Response.andThen_atOrigin ?_
  generalize (if quiet then r.trackDefaults s else ⟨r, []⟩ : Response).resolver = q
  have hstart : (if q.awaiting then ⟨q, []⟩ else q.activate s.time : Response).atOrigin =
      if q.atOrigin.awaiting then ⟨q.atOrigin, []⟩ else q.atOrigin.activate s.time :=
    (apply_ite Response.atOrigin _ _ _).trans (if_congr Iff.rfl rfl (q.activate_atOrigin s.time))
  rw [← hstart]
  exact Response.andThen_atOrigin rfl

/-! ## Actions -/

theorem evaluate_atOrigin (s : Snapshot) : (r.evaluate s).atOrigin = r.atOrigin.evaluate s := by
  have hdetect := r.detect_atOrigin s.time
  unfold evaluate
  dsimp only
  rw [← hdetect]
  change _ = match (r.detect s.time).resolver.atOrigin.continueActive s with
    | .stop rest => _ | .idle rest => _
  rw [← continueActive_atOrigin]
  cases (r.detect s.time).resolver.continueActive s with
  | stop rest => rfl
  | idle rest => exact Response.andThen_atOrigin (idle_atOrigin _ _ s)

theorem reset_atOrigin : r.reset.atOrigin = r.atOrigin.reset := by
  unfold reset
  rw [← clear_atOrigin]
  exact Response.andThen_atOrigin rfl

theorem tick_atOrigin (s : Snapshot) : (r.tick s).atOrigin = r.atOrigin.tick s := by
  unfold tick
  refine (apply_ite Response.atOrigin _ _ _).trans (if_congr Iff.rfl ?_ ?_)
  · exact (apply_ite Response.atOrigin _ _ _).trans (if_congr Iff.rfl r.reset_atOrigin rfl)
  · rw [← settle_atOrigin]
    cases r.settle s.time with
    | waiting q => rfl
    | done q => exact q.evaluate_atOrigin s

theorem byIndex_atOrigin (cues : List Cue) :
    (byIndex cues).map Cue.atOrigin = byIndex (cues.map Cue.atOrigin) :=
  List.map_mergeSort fun _ _ _ _ => rfl

theorem knows_atOrigin (cues : List Cue) (id : Uuid) :
    knows (cues.map Cue.atOrigin) id = knows cues id := by
  rw [knows, ← byIndex_atOrigin, List.any_map]
  rfl

theorem load_atOrigin (cues : List Cue) :
    (r.load cues).atOrigin = r.atOrigin.load (cues.map Cue.atOrigin) := by
  have hknows : knows (cues.map Cue.atOrigin) = knows cues := funext (knows_atOrigin cues)
  by_cases hkept : r.active.all (knows cues) = true
  · have hkept' : r.atOrigin.active.all (knows (cues.map Cue.atOrigin)) = true := by
      rw [hknows]
      exact hkept
    rw [load_kept hkept, load_kept hkept', hknows, ← byIndex_atOrigin]
    rfl
  · have hkept' : ¬ r.atOrigin.active.all (knows (cues.map Cue.atOrigin)) = true := by
      rw [hknows]
      exact hkept
    rw [load_lost hkept, load_lost hkept', hknows, ← byIndex_atOrigin]
    rfl

/-- Taking the offsets away commutes with every action. -/
theorem act_atOrigin (a : Action) : (r.act a).atOrigin = r.atOrigin.act a.atOrigin := by
  cases a with
  | load cues => exact r.load_atOrigin cues
  | tick s => exact r.tick_atOrigin s
  | userSeek target =>
    change (r.userSeek target).atOrigin = r.atOrigin.userSeek target
    unfold userSeek
    exact Response.andThen_atOrigin (moveTo_atOrigin _ _)
  | resumeDue => exact apply_ite Response.atOrigin _ _ _
  | reset => exact r.reset_atOrigin
  | endOfMedia => exact r.reset_atOrigin

/-! ## What is seen of a run -/

/-- What a resolver shows of its state. -/
structure View where
  active : Option Uuid
  executed : List Uuid
  last : Seconds
  defaults : Levels
  phase : Phase
  deriving DecidableEq

def view : View := ⟨r.active, r.executed, r.last, r.defaults, r.phase⟩

/-- What a run shows: the directives of each action and the state after it. -/
def outline (r : Resolver) : List Action → List (List Directive × View)
  | [] => []
  | a :: as => ((r.act a).directives, (r.act a).resolver.view) :: outline (r.act a).resolver as

/-- Offsets are never seen. -/
theorem outline_atOrigin (as : List Action) :
    r.atOrigin.outline (as.map Action.atOrigin) = r.outline as := by
  induction as generalizing r with
  | nil => rfl
  | cons a as ih =>
    rw [List.map_cons, outline, outline, ← act_atOrigin]
    exact congrArg (((r.act a).directives, (r.act a).resolver.view) :: ·) (ih (r.act a).resolver)

variable {r}

/-- Loading cues with the ids of those at hand, in their order, changes nothing else. -/
theorem load_same {cues : List Cue} (h : r.Listed) (hids : (cues.map fun c => c.id) = r.ids)
    (hsorted : cues.Pairwise fun c d => c.index ≤ d.index) :
    r.load cues = ⟨{ r with cues := cues }, []⟩ := by
  have hknown : ∀ id ∈ r.ids, knows cues id = true := fun id hid => knows_iff.mpr (hids ▸ hid)
  have hactive : r.active.all (knows cues) = true := by
    cases ha : r.active with
    | none => rfl
    | some id => exact hknown id (h.active id ha)
  have hexecuted : r.executed.filter (knows cues) = r.executed :=
    List.filter_eq_self.mpr fun id hid => hknown id (h.executed id hid)
  rw [load_kept hactive, hexecuted, byIndex_of_sorted hsorted]

/-- Whatever was done before, a new text with the same canonical texts of its cues sends nothing
when it is loaded, and no later action tells it from the old one. -/
theorem prose_edit_unseen (t : Tolerances) (as : List Action) {old new : List Char}
    (hlist : (run { tolerances := t } as).cues = Notes.parse old)
    (htexts : ((Notes.parse old).map fun c => c.canonical) =
      (Notes.parse new).map fun c => c.canonical) :
    let r := run { tolerances := t } as
    let edited := r.load (Notes.parse new)
    edited.directives = [] ∧ edited.resolver.view = r.view ∧
      ∀ later, edited.resolver.outline later = r.outline later := by
  intro r
  have horigin := Notes.parse_eq_of_canonical htexts
  have hids : ((Notes.parse new).map fun c => c.id) = r.ids := by
    have hsame := congrArg (List.map fun c => c.id) horigin
    rw [List.map_map, List.map_map] at hsame
    rw [ids, hlist]
    exact hsame.symm
  have hload := load_same ((Listed.new t).run as) hids (Notes.parse_sorted new)
  have hsame : (r.load (Notes.parse new)).resolver.atOrigin = r.atOrigin := by
    rw [hload, atOrigin, atOrigin, hlist, horigin]
  refine ⟨congrArg Response.directives hload, congrArg (fun a => a.resolver.view) hload, ?_⟩
  intro later
  rw [← outline_atOrigin, hsame, outline_atOrigin]

def sketch : List Char := "[00:00:01-00:00:02,30%,1.0x,->] [00:00:08-00:00:09,70%,1.0x]".toList

def polished : List Char :=
  "First [00:00:01.000-00:00:02.000,030%,1.00x,->],\nthen [00:00:08.000-00:00:09.000,70%,1.00x]."
    |>.toList

def firstCue : List Action := [.tick ⟨1, 100, 1, .playing⟩, .tick ⟨2.125, 30, 1, .playing⟩]

/-- The notes are polished while a jump is in flight. -/
theorem polished_midflight :
    let r := run { tolerances := {} } (.load (Notes.parse sketch) :: firstCue)
    let edited := r.load (Notes.parse polished)
    r.phase = .chaining ∧ r.cues = Notes.parse sketch ∧
      Notes.parse polished ≠ Notes.parse sketch ∧ edited.directives = [] ∧
      edited.resolver.view = r.view ∧ ∀ later, edited.resolver.outline later = r.outline later := by
  intro r edited
  have hr : r = run { tolerances := {}, cues := Notes.parse sketch } firstCue := by
    simp only [r, run, act, load_new {} (Notes.parse_sorted sketch)]
  have hlist : r.cues = Notes.parse sketch := by
    simp only [hr, firstCue, run, act, tick_cues]
  exact ⟨(congrArg phase hr).trans (by decide +kernel), hlist, by decide +kernel,
    prose_edit_unseen {} _ hlist (by decide +kernel)⟩

end Resolver

end PlaybackCues
