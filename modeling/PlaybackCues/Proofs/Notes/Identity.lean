import Mathlib.Data.Set.Function
import PlaybackCues.Proofs.Cue.Texts
import PlaybackCues.Proofs.Notes.Scanning

set_option autoImplicit false

/-!
# What an id stands for

An id is derived from a name, which is the index of the cue and its canonical text. The name of a
cue that was read tells the index and everything that the cue says, so where no two names have the
same id, neither have two cues that differ. The offset is no part of the name.
-/
namespace PlaybackCues

open Notes

/-! ## Names -/

namespace Cue

variable {c d : Cue}

def name (c : Cue) : String := String.ofList (Digits.write c.index) ++ ":" ++ c.text

theorem toList_name (c : Cue) : c.name.toList = Digits.write c.index ++ ':' :: c.canonical := by
  simp [name, CueSpec.text]

theorem name_injective (h : c.name = d.name) : c.index = d.index ∧ c.canonical = d.canonical := by
  have hcolon : DigitClass.decimal.mem ':' = false := DigitClass.mem_mark (by decide)
  have hlist := congrArg String.toList h
  rw [toList_name, toList_name] at hlist
  obtain ⟨hindex, _, htext⟩ :=
    (DigitClass.run_write _).unique (DigitClass.run_write _) hcolon hcolon hlist
  have hvalue := congrArg Digits.value hindex
  rw [Digits.value_write, Digits.value_write] at hvalue
  exact ⟨hvalue, htext⟩

theorem name_eq (hindex : c.index = d.index) (hspec : c.toCueSpec = d.toCueSpec) :
    c.name = d.name := by
  rw [name, name, hindex, hspec]

theorem spec_eq_iff : c.toCueSpec = d.toCueSpec ↔ c.start = d.start ∧ c.stop = d.stop ∧
    c.volume = d.volume ∧ c.rate = d.rate ∧ c.mode = d.mode := by
  rw [CueSpec.mk.injEq]

end Cue

theorem CueSpec.id_place (s : CueSpec) (index offset : Nat) :
    (s.place index offset).id = Uuid.byName Cue.space (s.place index offset).name := rfl

/-! ## Texts -/

namespace Notes

/-- The canonical text of an entry tells the entry. -/
theorem Entry.spec_eq_of_text {e f : Entry} (h : e.text = f.text) : e.spec = f.spec := by
  have htexts : e.fields.text ++ [] = f.fields.text ++ [] := by
    rw [e.fields_text, f.fields_text, h]
  have hfields : e.fields = f.fields :=
    (e.fields_isCue.shaped.unique f.fields_isCue.shaped htexts).1
  rw [← e.fields_spec, ← f.fields_spec, hfields]

variable {text text' : List Char} {c d : Cue}

theorem exists_entry_of_mem (h : c ∈ parse text) :
    (∃ e : Entry, c.toCueSpec = e.spec) ∧ c.id = Uuid.byName Cue.space c.name := by
  obtain ⟨f, ⟨hcue, _⟩, hplace⟩ := exists_standsAt_of_mem h
  obtain ⟨e, he⟩ := hcue.exists_entry
  rw [hplace, CueSpec.id_place]
  exact ⟨⟨e, he⟩, rfl⟩

theorem spec_eq_of_name (hc : c ∈ parse text) (hd : d ∈ parse text') (h : c.name = d.name) :
    c.index = d.index ∧ c.toCueSpec = d.toCueSpec := by
  obtain ⟨hindex, htext⟩ := Cue.name_injective h
  obtain ⟨⟨e, he⟩, _⟩ := exists_entry_of_mem hc
  obtain ⟨f, hf⟩ := exists_entry_of_mem hd |>.1
  rw [he, hf] at htext ⊢
  exact ⟨hindex, Entry.spec_eq_of_text htext⟩

def names (text text' : List Char) : Set String :=
  {name | ∃ c ∈ parse text ++ parse text', c.name = name}

/-- If the names of two texts do not collide, the ids of their cues stand for the index and for
what the cue says, and no text has two cues with the same id. Two cues that were built with
different offsets have the same id. -/
theorem id_identifies {text text' : List Char}
    (hinj : Set.InjOn (Uuid.byName Cue.space) (names text text')) :
    (∀ a ∈ parse text, ∀ b ∈ parse text', a.id = b.id ↔
      a.index = b.index ∧ a.start = b.start ∧ a.stop = b.stop ∧ a.volume = b.volume ∧
        a.rate = b.rate ∧ a.mode = b.mode) ∧
    ((parse text).Pairwise fun c d => c.id ≠ d.id) ∧
    ∀ (spec : CueSpec) (index offset offset' : Nat) (c d : Cue),
      spec.build index offset = .ok c → spec.build index offset' = .ok d → c.id = d.id := by
  have hname {a b : Cue} (ha : a ∈ parse text ++ parse text') (hb : b ∈ parse text ++ parse text')
      (hida : a.id = Uuid.byName Cue.space a.name) (hidb : b.id = Uuid.byName Cue.space b.name)
      (h : a.id = b.id) : a.name = b.name := by
    rw [hida, hidb] at h
    exact hinj ⟨a, ha, rfl⟩ ⟨b, hb, rfl⟩ h
  refine ⟨fun a ha b hb => ?_, ?_, ?_⟩
  · have hida := (exists_entry_of_mem ha).2
    have hidb := (exists_entry_of_mem hb).2
    rw [← Cue.spec_eq_iff]
    constructor
    · intro h
      exact spec_eq_of_name ha hb
        (hname (List.mem_append_left _ ha) (List.mem_append_right _ hb) hida hidb h)
    · rintro ⟨hindex, hspec⟩
      rw [hida, hidb, Cue.name_eq hindex hspec]
  · refine (parse_increasing text).imp_of_mem fun {c d} hc hd hlt h => Nat.ne_of_lt hlt ?_
    have hnames := hname (List.mem_append_left _ hc) (List.mem_append_left _ hd)
      (exists_entry_of_mem hc).2 (exists_entry_of_mem hd).2 h
    exact (Cue.name_injective hnames).1
  · intro spec index offset offset' c d hc hd
    rw [← (CueSpec.build_eq_ok_iff.mp hc).2, ← (CueSpec.build_eq_ok_iff.mp hd).2]
    rfl

def firstDraft : List Char :=
  "[00:00:01-00:00:02,80%,1.0x] [00:00:03-00:00:04,80%,1.0x]".toList

/-- The first cue is moved and written in another way, the second one gets another mode. -/
def secondDraft : List Char :=
  "Intro: [00:00:01.000-00:00:02.0,080%,1.001x], [00:00:03-00:00:04,80%,1.0x,->]".toList

theorem drafts_share_first_id :
    Set.InjOn (Uuid.byName Cue.space) (names firstDraft secondDraft) ∧
      ∀ a ∈ parse firstDraft, ∀ b ∈ parse secondDraft,
        a.id = b.id ↔ a.index = 0 ∧ b.index = 0 := by
  have hapart : ∀ m ∈ (parse firstDraft ++ parse secondDraft).map Cue.name,
      ∀ n ∈ (parse firstDraft ++ parse secondDraft).map Cue.name,
        Uuid.byName Cue.space m = Uuid.byName Cue.space n → m = n := by
    decide +kernel
  have hinj : Set.InjOn (Uuid.byName Cue.space) (names firstDraft secondDraft) := by
    rintro m ⟨c, hc, rfl⟩ n ⟨d, hd, rfl⟩ h
    exact hapart _ (List.mem_map_of_mem hc) _ (List.mem_map_of_mem hd) h
  have hsame : ∀ a ∈ parse firstDraft, ∀ b ∈ parse secondDraft,
      (a.index = b.index ∧ a.start = b.start ∧ a.stop = b.stop ∧ a.volume = b.volume ∧
        a.rate = b.rate ∧ a.mode = b.mode) ↔ a.index = 0 ∧ b.index = 0 := by
    decide +kernel
  refine ⟨hinj, fun a ha b hb => ?_⟩
  rw [(id_identifies hinj).1 a ha b hb]
  exact hsame a ha b hb

end Notes

end PlaybackCues
