import PlaybackCues.Proofs.Notes.Entries
import PlaybackCues.Proofs.Notes.Scanning
import PlaybackCues.Storage.Row

set_option autoImplicit false

/-!
# Cues that are stored and read back

The columns of a row hold whole numbers of 31 binary digits. A cue of some notes is refused exactly
when one of its numbers does not fit. From the row of any other cue the same cue is read: its times and
its rate are rounded already, so building it anew changes nothing and gives it the id it has.
-/
namespace PlaybackCues

open Notes Binary64

/-! ## Columns -/

namespace Columns

variable {name : String} {n top : Nat} {z : Int} {c : Cue}

theorem fit_eq_ok_iff : fit name n = .ok z ↔ n ≤ maxColumn ∧ z = n := by
  unfold fit
  split <;> simp [*, eq_comm]

theorem natural_of_le (h : n ≤ top) : natural name top n = .ok n := by
  have hrange : 0 ≤ (n : Int) ∧ (n : Int) ≤ top := by omega
  simp [natural, hrange]

structure Fits (c : Cue) : Prop where
  index : c.index ≤ maxColumn
  offset : c.offset ≤ maxColumn
  pause : ∀ n, c.mode = .pause n → n ≤ maxColumn

theorem mapM_fit_eq_ok_iff {n? : Option Nat} {z? : Option Int} :
    n?.mapM (fit name) = .ok z? ↔ (∀ n, n? = some n → n ≤ maxColumn) ∧ z? = n?.map Int.ofNat := by
  cases n? with
  | none => simp [pure, Except.pure, eq_comm]
  | some n =>
    by_cases h : n ≤ maxColumn
    · have hfit : fit name n = .ok (n : Int) := fit_eq_ok_iff.mpr ⟨h, rfl⟩
      simp [hfit, h, Functor.map, Except.map, eq_comm]
    · simp [fit, h, Functor.map, Except.map]

theorem mapM_natural {n? : Option Nat} (h : ∀ n, n? = some n → n ≤ top) :
    (n?.map Int.ofNat).mapM (natural name top) = .ok n? := by
  cases n? with
  | none => rfl
  | some n =>
    have hn : natural name top n = .ok n := natural_of_le (h n rfl)
    simp [hn, Functor.map, Except.map]

theorem seconds?_eq_some_iff {m : Mode} : m.seconds? = some n ↔ m = .pause n := by
  cases m <;> simp [Mode.seconds?]

theorem bind_eq_ok_iff {α β : Type} {x : Except Invalid α} {f : α → Except Invalid β} {b : β} :
    (x >>= f) = .ok b ↔ ∃ a, x = .ok a ∧ f a = .ok b := by
  cases x with
  | error e => simp [bind, Except.bind]
  | ok a => simp [bind, Except.bind]

theorem ofCue_eq_ok_iff {columns : Columns} : ofCue c = .ok columns ↔
    Fits c ∧ columns = ⟨c.index, c.offset, c.volume, c.mode.seconds?.map Int.ofNat⟩ := by
  simp only [ofCue, bind_eq_ok_iff, fit_eq_ok_iff, mapM_fit_eq_ok_iff, seconds?_eq_some_iff]
  constructor
  · rintro ⟨index, ⟨hindex, rfl⟩, offset, ⟨hoffset, rfl⟩, pause, ⟨hpause, rfl⟩, h⟩
    exact ⟨⟨hindex, hoffset, hpause⟩, (Except.ok.inj h).symm⟩
  · rintro ⟨h, rfl⟩
    exact ⟨_, ⟨h.index, rfl⟩, _, ⟨h.offset, rfl⟩, _, ⟨h.pause, rfl⟩, rfl⟩

theorem exists_error_iff : (∃ reason, ofCue c = .error reason) ↔ ¬ Fits c := by
  constructor
  · rintro ⟨reason, h⟩ hfits
    rw [ofCue_eq_ok_iff.mpr ⟨hfits, rfl⟩] at h
    cases h
  · intro h
    cases hcolumns : ofCue c with
    | error reason => exact ⟨reason, rfl⟩
    | ok columns => exact absurd (ofCue_eq_ok_iff.mp hcolumns).1 h

theorem not_fits_iff : ¬ Fits c ↔
    maxColumn < c.index ∨ maxColumn < c.offset ∨ ∃ n, c.mode = .pause n ∧ maxColumn < n := by
  constructor
  · intro h
    by_contra hle
    simp only [not_or, not_exists, not_and, Nat.not_lt] at hle
    exact h ⟨hle.1, hle.2.1, hle.2.2⟩
  · rintro h ⟨hindex, hoffset, hpause⟩
    rcases h with h | h | ⟨n, hn, h⟩
    · omega
    · omega
    · exact absurd (hpause n hn) (Nat.not_le_of_lt h)

end Columns

/-! ## Rows -/

theorem Mode.ofParts_label {m : Mode} (h : m.check = .ok ()) :
    Mode.ofParts m.label m.seconds? = .ok m := by
  cases m with
  | natural => rfl
  | jump => rfl
  | pause seconds =>
    cases seconds with
    | zero => cases h
    | succ n => rfl

namespace Notes

/-- What an entry says is rounded, and passes the checks. -/
theorem Entry.build_spec (e : Entry) (index offset : Nat) :
    e.spec.build index offset = .ok (e.spec.place index offset) := by
  have hrounded : e.spec.rounded = e.spec := by
    have hstart := TimeCode.roundMillis_ofMillis
      (Nat.le_of_lt (Nat.lt_trans e.start_lt hundredHours_lt))
    have hstop := TimeCode.roundMillis_ofMillis
      (Nat.le_of_lt (Nat.lt_trans e.window.2 hundredHours_lt))
    simp only [CueSpec.rounded, spec, hstart, hstop, roundRate_fraction e.hundredths_le]
  have hcheck : e.spec.rounded.check = .ok () := by
    rw [hrounded, ← e.fields_spec]
    exact e.fields_isCue.toReadable.check_eq_ok_iff.mpr e.fields_isCue
  have hbuild : e.spec.build index offset = .ok (e.spec.rounded.place index offset) :=
    CueSpec.build_eq_ok_iff.mpr ⟨hcheck, rfl⟩
  rw [hbuild, hrounded]

variable {text : List Char} {c : Cue}

/-- Building anew what a cue says that was read, at its place, gives the cue. -/
theorem build_of_mem (hc : c ∈ parse text) : c.toCueSpec.build c.index c.offset = .ok c := by
  obtain ⟨f, ⟨hcue, _⟩, hplace⟩ := exists_standsAt_of_mem hc
  obtain ⟨e, he⟩ := hcue.exists_entry
  rw [he] at hplace
  have hspec : c.toCueSpec = e.spec := by rw [hplace]; rfl
  rw [hspec, e.build_spec, ← hplace]

end Notes

namespace Row

variable {text : List Char} {c : Cue}

theorem toCue_of_build (hc : c.toCueSpec.build c.index c.offset = .ok c) (hfits : Columns.Fits c)
    (hvolume : c.volume ≤ maxByte) (hmode : c.mode.check = .ok ()) :
    Row.toCue ⟨⟨c.index, c.offset, c.volume, c.mode.seconds?.map Int.ofNat⟩, c.id, c.start, c.stop,
      c.rate, c.mode.label⟩ = .ok c := by
  have hseconds : ∀ n, c.mode.seconds? = some n → n ≤ Columns.maxColumn :=
    fun n hn => hfits.pause n (Columns.seconds?_eq_some_iff.mp hn)
  have hbuild : CueSpec.build ⟨c.start, c.stop, c.volume, c.rate, c.mode⟩ c.index c.offset =
    .ok c := hc
  unfold toCue
  simp only [Columns.natural_of_le hfits.index, Columns.natural_of_le hfits.offset,
    Columns.natural_of_le hvolume, Columns.mapM_natural hseconds, Mode.ofParts_label hmode,
    Columns.bind_eq_ok_iff, Except.ok.injEq, exists_eq_left', hbuild, if_true]

/-- A cue of some notes does not fit the columns exactly when its index, its offset or the length
of its pause takes more than 31 binary digits. If it fits, the same cue is read from its row. -/
theorem row_round_trip (hc : c ∈ parse text) :
    ((∃ reason, Columns.ofCue c = .error reason) ↔
      2 ^ 31 - 1 < c.index ∨ 2 ^ 31 - 1 < c.offset ∨ ∃ n, c.mode = .pause n ∧ 2 ^ 31 - 1 < n) ∧
    ∀ columns, Columns.ofCue c = .ok columns →
      Row.toCue ⟨columns, c.id, c.start, c.stop, c.rate, c.mode.label⟩ = .ok c := by
  have hbuild := build_of_mem hc
  obtain ⟨_, hvolume, _, hmode⟩ :=
    CueSpec.check_eq_ok_iff.mp (CueSpec.build_eq_ok_iff.mp hbuild).1
  have hvolume : c.volume ≤ maxByte :=
    Nat.le_trans (checkVolume_eq_ok_iff.mp hvolume) (by decide)
  refine ⟨Columns.exists_error_iff.trans Columns.not_fits_iff, fun columns hcolumns => ?_⟩
  obtain ⟨hfits, rfl⟩ := Columns.ofCue_eq_ok_iff.mp hcolumns
  exact toCue_of_build hbuild hfits hvolume hmode

def longPause : List Char :=
  "Intro [00:00:05-00:00:10.5,050%,1.254x,|4] [00:00:10-00:00:11,50%,1.0x,|2147483648]".toList

theorem longPause_rows :
    ∃ c d columns, parse longPause = [c, d] ∧ Columns.ofCue c = .ok columns ∧
      Row.toCue ⟨columns, c.id, c.start, c.stop, c.rate, c.mode.label⟩ = .ok c ∧
      ∃ reason, Columns.ofCue d = .error reason := by
  have hshown : (parse longPause).map (fun c => (c.index, c.offset, c.mode)) =
      [(0, 6, .pause 4), (1, 43, .pause 2147483648)] := by decide +kernel
  obtain ⟨c, rest, hparse, hc, hrest⟩ := List.map_eq_cons_iff.mp hshown
  obtain ⟨d, rest, rfl, hd, hrest⟩ := List.map_eq_cons_iff.mp hrest
  obtain rfl := List.map_eq_nil_iff.mp hrest
  simp only [Prod.mk.injEq] at hc hd
  obtain ⟨hfail, hread⟩ := row_round_trip (hparse ▸ List.mem_cons_self : c ∈ parse longPause)
  obtain ⟨hfail', _⟩ := row_round_trip (show d ∈ parse longPause by simp [hparse])
  have hfits : ¬ ∃ reason, Columns.ofCue c = .error reason := by
    rw [hfail, hc.1, hc.2.1, hc.2.2]
    simp
  cases hcolumns : Columns.ofCue c with
  | error reason => exact absurd ⟨reason, hcolumns⟩ hfits
  | ok columns =>
    exact ⟨c, d, columns, hparse, hcolumns, hread columns hcolumns,
      hfail'.mpr (.inr (.inr ⟨_, hd.2.2, by decide⟩))⟩

end Row

end PlaybackCues
