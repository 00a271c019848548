import PlaybackCues.Persistence.Recordings
import PlaybackCues.Proofs.Persistence.Cues

set_option autoImplicit false

/-!
# Recordings read back from JSON

A recording is read back field by field, and its events one by one. Its written text is read as its
value in JSON, so that recordings and cues survive being stored, however often.
-/
namespace PlaybackCues

open Json

/-! ## Events -/

theorem EventKind.ofJson?_toJson (k : EventKind) : EventKind.ofJson? k.toJson = some k := by
  cases k <;> decide +kernel

namespace RecordedEvent

def Sized (e : RecordedEvent) : Prop := e.captured.Told

def doubles (e : RecordedEvent) : List Binary64 := [e.time, e.value, e.previous]

variable {e : RecordedEvent} {j : Json}

theorem ofJson?_toJson (h : e.Sized) : ofJson? e.toJson = some e := by
  unfold ofJson? toJson
  rw [fields?_ofMembers (by decide) rfl]
  simp [uuid?_toChars, ofDouble, double?, EventKind.ofJson?_toJson, timestamp?_toChars h]

theorem toJson_legible (hdoubles : ∀ x ∈ e.doubles, (JsonNumber.double x).Restored) :
    e.toJson.Legible := by
  have hnumbers : ∀ x ∈ e.doubles, (ofDouble x).Legible := fun x hx => .number (hdoubles x hx)
  simp only [doubles, List.forall_mem_cons] at hnumbers
  obtain ⟨htime, hvalue, hprevious, -⟩ := hnumbers
  refine legible_ofMembers ?_
  simp only [List.forall_mem_cons]
  exact ⟨legible_ofChars _, htime, legible_ofChars _, hvalue, hprevious, legible_ofChars _,
    List.forall_mem_nil _⟩

theorem exists_fields (h : ofJson? j = some e) :
    ∃ id time kind value previous captured,
      j.fields? fieldNames = some [some id, some time, some kind, some value, some previous,
        some captured] ∧
      time.double? = some e.time ∧ value.double? = some e.value ∧ previous.double? = some e.previous ∧
      captured.timestamp? = some e.captured := by
  unfold ofJson? at h
  split at h
  · rename_i hfields
    simp only [Option.bind_eq_bind, Option.bind_eq_some_iff] at h
    obtain ⟨id, -, time, htime, kind, -, value, hvalue, previous, hprevious, captured, hcaptured,
      heq⟩ := h
    cases heq
    exact ⟨_, _, _, _, _, _, hfields, htime, hvalue, hprevious, hcaptured⟩
  · cases h

theorem sized_of_ofJson? (h : ofJson? j = some e) : e.Sized := by
  obtain ⟨_, _, _, _, _, _, -, -, -, -, hcaptured⟩ := exists_fields h
  exact told_of_timestamp? hcaptured

theorem isFinite_of_ofJson? {text : JsonText → Prop} (hj : j.Each FiniteNumber text)
    (h : ofJson? j = some e) : ∀ x ∈ e.doubles, x.isFinite = true := by
  obtain ⟨_, time, _, value, previous, _, hfields, htime, hvalue, hprevious, -⟩ := exists_fields h
  have heach := fields?_each hj hfields
  simp only [doubles, List.forall_mem_cons]
  exact ⟨isFinite_of_double? (heach time (by simp)) htime,
    isFinite_of_double? (heach value (by simp)) hvalue,
    isFinite_of_double? (heach previous (by simp)) hprevious, List.forall_mem_nil _⟩

end RecordedEvent

/-! ## Recordings -/

namespace Recording

structure Sized (r : Recording) : Prop where
  document : minDocument ≤ r.document ∧ r.document ≤ maxDocument
  volume : r.volume ≤ maxByte
  created : r.created.Told
  updated : r.updated.Told
  events : ∀ e ∈ r.events, e.Sized

def doubles (r : Recording) : List Binary64 :=
  r.duration :: r.rate :: r.events.flatMap RecordedEvent.doubles

variable {r : Recording} {j : Json}

theorem titleOfJson?_titleToJson (title : Option String) :
    titleOfJson? (some (titleToJson title)) = some title := by
  cases title with
  | none => rfl
  | some title => simp [titleToJson, titleOfJson?, ofString, ofChars, chars?]

theorem mapM_toJson {events : List RecordedEvent} (h : ∀ e ∈ events, e.Sized) :
    (events.map RecordedEvent.toJson).mapM RecordedEvent.ofJson? = some events := by
  induction events with
  | nil => rfl
  | cons e events ih =>
    obtain ⟨he, hevents⟩ := List.forall_mem_cons.mp h
    rw [List.map_cons, List.mapM_cons, RecordedEvent.ofJson?_toJson he, ih hevents]
    rfl

theorem ofJson?_toJson (h : r.Sized) : ofJson? r.toJson = some r := by
  unfold ofJson? toJson
  rw [fields?_ofMembers (by decide) rfl]
  simp [uuid?_toChars, integer?_ofInt h.document.1 h.document.2, titleOfJson?_titleToJson,
    ofDouble, double?, natural?_ofNat h.volume, timestamp?_toChars h.created,
    timestamp?_toChars h.updated, elements?, mapM_toJson h.events]

theorem toJson_legible (h : r.Sized)
    (hdoubles : ∀ x ∈ r.doubles, (JsonNumber.double x).Restored) : r.toJson.Legible := by
  have hlevel : maxByte ≤ maxWord := by decide
  have hmin : -(JsonLiteral.maxNegative : Int) ≤ minDocument := by decide
  have hmax : maxDocument ≤ maxWord := by decide
  obtain ⟨hduration, hrate, hevents⟩ : (JsonNumber.double r.duration).Restored ∧
      (JsonNumber.double r.rate).Restored ∧
      ∀ x ∈ r.events.flatMap RecordedEvent.doubles, (JsonNumber.double x).Restored := by
    simpa only [doubles, List.forall_mem_cons] using hdoubles
  have htitle : (titleToJson r.title).Legible := by
    cases r.title with
    | none => exact .null
    | some title => exact legible_ofChars _
  have hlist : (Json.array (r.events.map RecordedEvent.toJson)).Legible := by
    refine .array fun v hv => ?_
    obtain ⟨e, he, rfl⟩ := List.mem_map.mp hv
    exact RecordedEvent.toJson_legible fun x hx => hevents x (List.mem_flatMap.mpr ⟨e, he, hx⟩)
  refine legible_ofMembers ?_
  simp only [List.forall_mem_cons]
  exact ⟨legible_ofChars _, legible_ofInt (Int.le_trans hmin h.document.1)
    (Int.le_trans h.document.2 hmax), htitle, .number hduration,
    legible_ofNat (Nat.le_trans h.volume hlevel), .number hrate, legible_ofChars _, legible_ofChars _,
    hlist, List.forall_mem_nil _⟩

/-- What the fields of a recording that is read are. -/
theorem exists_fields (h : ofJson? j = some r) :
    ∃ id document title duration volume rate created updated events items,
      j.fields? fieldNames = some [some id, some document, title, some duration, some volume,
        some rate, some created, some updated, some events] ∧
      document.integer? minDocument maxDocument = some r.document ∧
      duration.double? = some r.duration ∧ volume.natural? maxByte = some r.volume ∧
      rate.double? = some r.rate ∧ created.timestamp? = some r.created ∧
      updated.timestamp? = some r.updated ∧ events = .array items ∧
      items.mapM RecordedEvent.ofJson? = some r.events := by
  unfold ofJson? at h
  split at h
  · rename_i hfields
    simp only [Option.bind_eq_bind, Option.bind_eq_some_iff] at h
    obtain ⟨id, -, document, hdocument, title, -, duration, hduration, volume, hvolume, rate, hrate,
      created, hcreated, updated, hupdated, events, ⟨items, hitems, hevents⟩, heq⟩ := h
    cases heq
    exact ⟨_, _, _, _, _, _, _, _, _, items, hfields, hdocument, hduration, hvolume, hrate, hcreated,
      hupdated, eq_array_of_elements? hitems, hevents⟩
  · cases h

theorem exists_item {items : List Json} {events : List RecordedEvent}
    (h : items.mapM RecordedEvent.ofJson? = some events) :
    ∀ e ∈ events, ∃ v ∈ items, RecordedEvent.ofJson? v = some e := by
  induction items generalizing events with
  | nil =>
    cases h
    exact List.forall_mem_nil _
  | cons v items ih =>
    simp only [List.mapM_cons, Option.bind_eq_bind, Option.bind_eq_some_iff] at h
    obtain ⟨first, hfirst, others, hothers, heq⟩ := h
    cases heq
    refine List.forall_mem_cons.mpr ⟨⟨v, List.mem_cons_self, hfirst⟩, fun e he => ?_⟩
    obtain ⟨w, hw, hread⟩ := ih hothers e he
    exact ⟨w, List.mem_cons_of_mem v hw, hread⟩

theorem sized_of_ofJson? (h : ofJson? j = some r) : r.Sized := by
  obtain ⟨_, _, _, _, _, _, _, _, _, items, -, hdocument, -, hvolume, -, hcreated, hupdated, -,
    hevents⟩ := exists_fields h
  refine ⟨integer?_range hdocument, natural?_le hvolume, told_of_timestamp? hcreated,
    told_of_timestamp? hupdated, fun e he => ?_⟩
  obtain ⟨v, -, hv⟩ := exists_item hevents e he
  exact RecordedEvent.sized_of_ofJson? hv

theorem isFinite_of_ofJson? {text : JsonText → Prop} (hj : j.Each FiniteNumber text)
    (h : ofJson? j = some r) : ∀ x ∈ r.doubles, x.isFinite = true := by
  obtain ⟨_, _, _, duration, _, rate, _, _, _, items, hfields, -, hduration, -, hrate, -, -, rfl,
    hevents⟩ := exists_fields h
  have heach := fields?_each hj hfields
  have hitems : (Json.array items).Each FiniteNumber text := heach _ (by simp)
  simp only [doubles, List.forall_mem_cons]
  refine ⟨isFinite_of_double? (heach duration (by simp)) hduration,
    isFinite_of_double? (heach rate (by simp)) hrate, fun x hx => ?_⟩
  obtain ⟨e, he, hxe⟩ := List.mem_flatMap.mp hx
  obtain ⟨v, hv, hread⟩ := exists_item hevents e he
  cases hitems with
  | array hitems => exact RecordedEvent.isFinite_of_ofJson? (hitems v hv) hread x hxe

end Recording

/-! ## Texts -/

/-- Each finite double of a list is read back from the text of its shortest digits. -/
def PrintsExactly (xs : List Binary64) : Prop :=
  ∀ x ∈ xs, x.isFinite = true → (JsonNumber.double x).Restored

instance (xs : List Binary64) : Decidable (PrintsExactly xs) :=
  inferInstanceAs (Decidable (∀ x ∈ xs, x.isFinite = true → (JsonNumber.double x).Restored))

theorem Recording.decode?_encode {r : Recording} (h : r.Sized)
    (hfinite : ∀ x ∈ r.doubles, x.isFinite = true) (hprint : PrintsExactly r.doubles) :
    decode? r.encode = some r := by
  have hlegible := toJson_legible h fun x hx => hprint x hx (hfinite x hx)
  rw [decode?, encode, read?_write hlegible, Option.bind_some, ofJson?_toJson h]

theorem Recording.sound_of_decode? {cs : List Char} {r : Recording} (h : decode? cs = some r) :
    r.Sized ∧ ∀ x ∈ r.doubles, x.isFinite = true := by
  obtain ⟨j, hj, hr⟩ := Option.bind_eq_some_iff.mp h
  exact ⟨sized_of_ofJson? hr, isFinite_of_ofJson? (read?_each finiteNumber_toNumber hj) hr⟩

theorem Cue.decode?_encode {c : Cue} (h : c.Sized) (hfinite : ∀ x ∈ c.doubles, x.isFinite = true)
    (hprint : PrintsExactly c.doubles) : decode? c.encode = some c := by
  have hlegible := toJson_legible h fun x hx => hprint x hx (hfinite x hx)
  rw [decode?, encode, read?_write hlegible, Option.bind_some, ofJson?_toJson h]

theorem Cue.sound_of_decode? {cs : List Char} {c : Cue} (h : decode? cs = some c) :
    c.Sized ∧ ∀ x ∈ c.doubles, x.isFinite = true := by
  obtain ⟨j, hj, hc⟩ := Option.bind_eq_some_iff.mp h
  exact ⟨sized_of_ofJson? hc, isFinite_of_ofJson? (read?_each finiteNumber_toNumber hj) hc⟩

/-- Recordings and cues whose doubles are finite are read back from their JSON texts as they were. A
text that is read as one of them may be spelled in other ways, but what it is read as stays the same
when it is written and read again. All that is taken for granted is that the doubles of the value at
hand are printed exactly; ids, moments, texts and whole numbers always are. -/
theorem persisted_read_back :
    (∀ r : Recording, r.Sized → (∀ x ∈ r.doubles, x.isFinite = true) → PrintsExactly r.doubles →
      Recording.decode? r.encode = some r) ∧
    (∀ c : Cue, c.Sized → (∀ x ∈ c.doubles, x.isFinite = true) → PrintsExactly c.doubles →
      Cue.decode? c.encode = some c) ∧
    (∀ cs r, Recording.decode? cs = some r → PrintsExactly r.doubles →
      Recording.decode? r.encode = some r) ∧
    ∀ cs c, Cue.decode? cs = some c → PrintsExactly c.doubles → Cue.decode? c.encode = some c := by
  refine ⟨fun r h hfinite hprint => Recording.decode?_encode h hfinite hprint,
    fun c h hfinite hprint => Cue.decode?_encode h hfinite hprint, fun cs r h hprint => ?_,
    fun cs c h hprint => ?_⟩
  · obtain ⟨hsized, hfinite⟩ := Recording.sound_of_decode? h
    exact Recording.decode?_encode hsized hfinite hprint
  · obtain ⟨hsized, hfinite⟩ := Cue.sound_of_decode? h
    exact Cue.decode?_encode hsized hfinite hprint

def leapTake : Recording where
  id := ⟨0xa1b2c3d4e5f60718293a4b5c6d7e8f90⟩
  document := -7
  title := some "a \"take\"\n"
  duration := 12.5
  volume := 80
  rate := 1.25
  created := ⟨1483228700, 250000000⟩
  updated := ⟨1483228799, 1500000000⟩
  events := [⟨⟨0xff⟩, 0.1, .manual, 0, 0, ⟨1483228799, 1000000001⟩⟩]

def pausedCue : Cue where
  start := 61.5
  stop := 125
  volume := 80
  rate := 1.25
  mode := .pause 5
  id := ⟨0xa1b2c3d4e5f60718293a4b5c6d7e8f90⟩
  index := 3
  offset := 1024

/-- The recording as an array, with other spellings of its id, its moments and its numbers. -/
def leapTakeArray : List Char :=
  ["[\"A1B2C3D4E5F60718293A4B5C6D7E8F90\", -7, ", "\"a \\u0022take\\u0022\\n\", 125e-1, 80, 1.25, ",
    "\"2017-01-01t00:58:20.25+01:00\", ", "\"2016-12-31 23:59:60.5000 UTC\", ",
    "[[\"urn:uuid:00000000-0000-0000-0000-0000000000FF\", ", "0.10, \"manual\", 0, 0, ",
    "\"2016-12-31T23:59:60.000000001Z\"]]]"].flatMap String.toList

def pausedCueReordered : List Char :=
  ["\x7b\"mode\": [\"pause\", 5], \"rate\": 1.25, ", "\"volume\": 80, \"end_time\": 125, ",
    "\"start_time\": 61.5, \"source_offset\": 1024, ", "\"document_index\": 3, \"note\": null, ",
    "\"id\": \"\x7ba1b2c3d4-e5f6-0718-293a-4b5c6d7e8f90\x7d\"\x7d"].flatMap String.toList

theorem leapTake_pausedCue_read_back :
    (leapTake.Sized ∧ Recording.decode? leapTake.encode = some leapTake) ∧
    (pausedCue.Sized ∧ Cue.decode? pausedCue.encode = some pausedCue) ∧
    (Recording.decode? leapTakeArray = some leapTake ∧
      Recording.decode? leapTake.encode = some leapTake) ∧
    Cue.decode? pausedCueReordered = some pausedCue ∧
      Cue.decode? pausedCue.encode = some pausedCue := by
  obtain ⟨hrecording, hcue, hrecordings, hcues⟩ := persisted_read_back
  have htake : leapTake.Sized :=
    ⟨by decide, by decide, ⟨by decide +kernel, by decide⟩, ⟨by decide +kernel, by decide⟩,
      List.forall_mem_singleton.mpr ⟨by decide +kernel, by decide⟩⟩
  have hpaused : pausedCue.Sized := ⟨by decide, by decide, by decide, by rintro n ⟨⟩; decide⟩
  have htakePrint : PrintsExactly leapTake.doubles := by decide +kernel
  have hcuePrint : PrintsExactly pausedCue.doubles := by decide +kernel
  have htakeRead : Recording.decode? leapTakeArray = some leapTake := by decide +kernel
  have hcueRead : Cue.decode? pausedCueReordered = some pausedCue := by decide +kernel
  exact ⟨⟨htake, hrecording leapTake htake (by decide +kernel) htakePrint⟩,
    ⟨hpaused, hcue pausedCue hpaused (by decide +kernel) hcuePrint⟩,
    ⟨htakeRead, hrecordings leapTakeArray leapTake htakeRead htakePrint⟩,
    hcueRead, hcues pausedCueReordered pausedCue hcueRead hcuePrint⟩

end PlaybackCues
