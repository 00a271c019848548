import PlaybackCues.Proofs.Json.Numbers
import PlaybackCues.Proofs.Json.Texts

set_option autoImplicit false

/-!
# Reading what was written in JSON

A value is read back from its written form if each number in it is, and each text has characters.
Twice the length of a value is fuel enough, and a value that is written says by its first character
what it is. Whatever text is read, each double in the value is finite.
-/
namespace PlaybackCues.Json

inductive Each (number : JsonNumber → Prop) (text : JsonText → Prop) : Json → Prop where
  | null : Each number text .null
  | bool (b : Bool) : Each number text (.bool b)
  | number {n : JsonNumber} (h : number n) : Each number text (.number n)
  | text {t : JsonText} (h : text t) : Each number text (.text t)
  | array {items : List Json} (h : ∀ v ∈ items, Each number text v) : Each number text (.array items)
  | object {members : List (JsonText × Json)} (names : ∀ m ∈ members, text m.1)
      (values : ∀ m ∈ members, Each number text m.2) : Each number text (.object members)

def Legible (v : Json) : Prop := v.Each JsonNumber.Restored fun t => t.isSome = true

/-- The value is read from its written form in front of any text, with twice its length as fuel. -/
def ReadsBack (v : Json) : Prop :=
  ∀ k rest, 2 * (write v).length ≤ k + 1 → Closed rest → value? k (write v ++ rest) = some (v, rest)

/-! ## The first character -/

def Opens (cs : List Char) : Prop := ∃ c tail, cs = c :: tail ∧ isBlank c = false ∧ c ≠ ']'

theorem Opens.append {cs : List Char} (h : Opens cs) (rest : List Char) : Opens (cs ++ rest) := by
  obtain ⟨c, tail, rfl, hc⟩ := h
  exact ⟨c, tail ++ rest, rfl, hc⟩

theorem Opens.skipBlanks {cs : List Char} (h : Opens cs) : skipBlanks cs = cs := by
  obtain ⟨c, tail, rfl, hc, -⟩ := h
  exact List.dropWhile_cons_of_neg (by simp [hc])

theorem opens_cons {c : Char} {tail : List Char} (h : (isBlank c || c == ']') = false) :
    Opens (c :: tail) := by
  simp only [Bool.or_eq_false_iff, beq_eq_false_iff_ne] at h
  exact ⟨c, tail, rfl, h⟩

/-- No other character starts a number. -/
theorem ne_of_number {c d : Char} (hc : c = '-' ∨ c.isDigit = true)
    (hd : (d == '-' || d.isDigit) = false) : c ≠ d := by
  rintro rfl
  simp only [Bool.or_eq_false_iff, beq_eq_false_iff_ne] at hd
  rcases hc with hc | hc
  · exact hd.1 hc
  · exact absurd hc (by simp [hd.2])

theorem opens_number {cs : List Char} {r : JsonLiteral × List Char}
    (h : JsonLiteral.scan? cs = some r) : Opens cs := by
  obtain ⟨c, tail, rfl, hc⟩ := JsonLiteral.head_of_scan? h
  refine ⟨c, tail, rfl, ?_, ne_of_number hc rfl⟩
  simp only [isBlank, Bool.or_eq_false_iff, decide_eq_false_iff_not]
  exact ⟨⟨⟨ne_of_number hc rfl, ne_of_number hc rfl⟩, ne_of_number hc rfl⟩, ne_of_number hc rfl⟩

theorem Legible.opens {v : Json} (h : v.Legible) : Opens (write v) := by
  cases h with
  | null => exact opens_cons rfl
  | bool b => cases b <;> exact opens_cons rfl
  | number h =>
    obtain ⟨l, hl, -⟩ := JsonLiteral.read?_eq_some_iff.mp h
    rw [write]
    exact opens_number hl
  | text h => exact opens_cons rfl
  | array h => exact opens_cons rfl
  | object names values => exact opens_cons rfl

/-! ## Scalars -/

theorem value?_of_opens {k : Nat} {cs : List Char} (h : Opens cs)
    (hhead : ∀ c ∈ cs.head?, c ≠ '[' ∧ c ≠ '\x7b') : value? (k + 1) cs = scalar? cs := by
  rw [value?, h.skipBlanks]
  split
  · exact absurd rfl (hhead _ rfl).1
  · exact absurd rfl (hhead _ rfl).2
  · rfl

/-- Neither an array nor an object. -/
theorem readsBack_scalar {v : Json} {c : Char} {tail : List Char} (hwrite : write v = c :: tail)
    (hopens : Opens (c :: tail)) (hhead : c ≠ '[' ∧ c ≠ '\x7b')
    (h : ∀ rest, Closed rest → scalar? (write v ++ rest) = some (v, rest)) : ReadsBack v := by
  intro k rest hk hrest
  rw [hwrite, List.length_cons] at hk
  obtain ⟨k, rfl⟩ : ∃ j, k = j + 1 := Nat.exists_eq_add_one.mpr (by omega)
  have hscalar := h rest hrest
  rw [hwrite] at hscalar ⊢
  rw [value?_of_opens (hopens.append rest) (by rintro d ⟨⟩; exact hhead), hscalar]

theorem scalar?_number {cs rest : List Char} {l : JsonLiteral}
    (h : JsonLiteral.scan? cs = some (l, rest)) : scalar? cs = some (.number l.toNumber, rest) := by
  obtain ⟨c, tail, rfl, hc⟩ := JsonLiteral.head_of_scan? h
  unfold scalar?
  split
  · rename_i heq
    exact absurd (List.cons.inj heq).1 (ne_of_number hc rfl)
  · rename_i heq
    exact absurd (List.cons.inj heq).1 (ne_of_number hc rfl)
  · rename_i heq
    exact absurd (List.cons.inj heq).1 (ne_of_number hc rfl)
  · rename_i heq
    exact absurd (List.cons.inj heq).1 (ne_of_number hc rfl)
  · rw [h]
    rfl

theorem readsBack_number {n : JsonNumber} (h : n.Restored) : ReadsBack (.number n) := by
  obtain ⟨l, hl, rfl⟩ := JsonLiteral.read?_eq_some_iff.mp h
  obtain ⟨c, tail, hcs, hc⟩ := JsonLiteral.head_of_scan? hl
  refine readsBack_scalar hcs (hcs ▸ opens_number hl) ⟨ne_of_number hc rfl, ne_of_number hc rfl⟩
    fun rest hrest => ?_
  exact scalar?_number (JsonLiteral.scan?_local _ _ _ hl rest hrest)

theorem readsBack_text (cs : List Char) : ReadsBack (.text (some cs)) := by
  refine readsBack_scalar rfl (opens_cons rfl) (by decide) fun rest _ => ?_
  change scalar? (('"' :: cs.flatMap escape ++ ['"']) ++ rest) = _
  rw [List.cons_append, List.cons_append, List.append_assoc, scalar?]
  change (text? (cs.flatMap escape ++ '"' :: rest)).map _ = _
  rw [text?_flatMap]
  rfl

theorem word?_append (word : String) (rest : List Char) :
    word? word (word.toList ++ rest) = some rest := by
  have hprefix : word.toList.isPrefixOf (word.toList ++ rest) = true :=
    List.isPrefixOf_iff_prefix.mpr (List.prefix_append _ _)
  rw [word?, if_pos hprefix, ← String.length_toList, List.drop_left]

theorem readsBack_null : ReadsBack .null := by
  refine readsBack_scalar rfl (opens_cons rfl) (by decide) fun rest _ => ?_
  change (word? "null" ("null".toList ++ rest)).map _ = _
  rw [word?_append]
  rfl

theorem readsBack_bool (b : Bool) : ReadsBack (.bool b) := by
  cases b with
  | true =>
    refine readsBack_scalar rfl (opens_cons rfl) (by decide) fun rest _ => ?_
    change (word? "true" ("true".toList ++ rest)).map _ = _
    rw [word?_append]
    rfl
  | false =>
    refine readsBack_scalar rfl (opens_cons rfl) (by decide) fun rest _ => ?_
    change (word? "false" ("false".toList ++ rest)).map _ = _
    rw [word?_append]
    rfl

/-! ## Arrays and objects -/

theorem value?_array {k : Nat} {cs rest : List Char} {items : List Json} (hopens : Opens cs)
    (h : items? k cs = some (items, rest)) :
    value? (k + 1) ('[' :: cs) = some (.array items, rest) := by
  have hbracket : skipBlanks ('[' :: cs) = '[' :: cs := rfl
  simp only [value?, hbracket, hopens.skipBlanks]
  split
  · obtain ⟨c, tail, heq, -, hc⟩ := hopens
    exact absurd (List.cons.inj heq).1.symm hc
  · rw [h]
    rfl

theorem writeItems_cons (v w : Json) (items : List Json) :
    writeItems (v :: w :: items) = write v ++ ',' :: writeItems (w :: items) := by
  rw [writeItems]
  exact List.cons_ne_nil w items

theorem items?_write {items : List Json} (hne : items ≠ []) (h : ∀ v ∈ items, ReadsBack v) {k : Nat}
    (hk : 2 * (writeItems items).length < k) (rest : List Char) :
    items? k (writeItems items ++ ']' :: rest) = some (items, rest) := by
  induction items generalizing k with
  | nil => exact absurd rfl hne
  | cons v items ih =>
    obtain ⟨k, rfl⟩ := Nat.exists_eq_add_one.mpr (Nat.zero_lt_of_lt hk)
    obtain ⟨hv, hitems⟩ := List.forall_mem_cons.mp h
    cases items with
    | nil =>
      rw [writeItems] at hk ⊢
      rw [items?, hv k (']' :: rest) (by omega) (by rintro c ⟨⟩; simp)]
      rfl
    | cons w items =>
      rw [writeItems_cons] at hk ⊢
      rw [List.length_append, List.length_cons] at hk
      rw [List.append_assoc, items?, hv k _ (by omega) (by rintro c ⟨⟩; simp)]
      change (items? k (writeItems (w :: items) ++ ']' :: rest)).map _ = _
      rw [ih (List.cons_ne_nil _ _) hitems (by omega)]
      rfl

theorem readsBack_array {items : List Json} (hopens : ∀ v ∈ items, Opens (write v))
    (h : ∀ v ∈ items, ReadsBack v) : ReadsBack (.array items) := by
  intro k rest hk _
  rw [write, List.length_append, List.length_cons, List.length_singleton] at hk
  obtain ⟨k, rfl⟩ : ∃ j, k = j + 1 := Nat.exists_eq_add_one.mpr (by omega)
  rw [write, List.cons_append, List.cons_append, List.append_assoc]
  cases items with
  | nil => rfl
  | cons v items =>
    have hfirst := hopens v List.mem_cons_self
    have hstart : Opens (writeItems (v :: items)) := by
      cases items with
      | nil => exact hfirst
      | cons w items =>
        rw [writeItems_cons]
        exact hfirst.append _
    exact value?_array (hstart.append _) (items?_write (List.cons_ne_nil v items) h (by omega) rest)

theorem writeMembers_cons (name : JsonText) (v : Json) (m : JsonText × Json)
    (members : List (JsonText × Json)) :
    writeMembers ((name, v) :: m :: members) =
      writeText name ++ ':' :: write v ++ ',' :: writeMembers (m :: members) := by
  rw [writeMembers]
  exact List.cons_ne_nil m members

theorem writeMember_eq (name : List Char) (cs rest : List Char) :
    writeText (some name) ++ ':' :: cs ++ rest =
      '"' :: (name.flatMap escape ++ '"' :: ':' :: (cs ++ rest)) := by
  simp [writeText]

/-- A member is read and then what separates it from the next one. -/
theorem members?_step {k : Nat} {name : List Char} {v : Json} (hv : ReadsBack v)
    (hk : 2 * (write v).length ≤ k + 1) {c : Char} {rest : List Char} (hrest : Closed (c :: rest)) :
    members? (k + 1) (writeText (some name) ++ ':' :: write v ++ c :: rest) =
      if c = ',' then (members? k rest).map fun r => ((some name, v) :: r.1, r.2)
      else if c = '\x7d' then some ([(some name, v)], rest) else none := by
  have hquote : ∀ cs, skipBlanks ('"' :: cs) = '"' :: cs := fun _ => rfl
  have hcolon : ∀ cs, skipBlanks (':' :: cs) = ':' :: cs := fun _ => rfl
  rw [writeMember_eq]
  simp only [members?, hquote, text?_flatMap, Option.bind_eq_bind, Option.bind_some, hcolon,
    hv k (c :: rest) hk hrest]
  rcases hrest c rfl with rfl | rfl | rfl
  · rfl
  · rfl
  · rfl

theorem members?_write {members : List (JsonText × Json)} (hne : members ≠ [])
    (hnames : ∀ m ∈ members, m.1.isSome = true) (h : ∀ m ∈ members, ReadsBack m.2) {k : Nat}
    (hk : 2 * (writeMembers members).length < k) (rest : List Char) :
    members? k (writeMembers members ++ '\x7d' :: rest) = some (members, rest) := by
  induction members generalizing k with
  | nil => exact absurd rfl hne
  | cons m members ih =>
    obtain ⟨k, rfl⟩ := Nat.exists_eq_add_one.mpr (Nat.zero_lt_of_lt hk)
    obtain ⟨hm, hmembers⟩ := List.forall_mem_cons.mp h
    obtain ⟨hname, hothers⟩ := List.forall_mem_cons.mp hnames
    obtain ⟨_ | name, v⟩ := m
    · cases hname
    cases members with
    | nil =>
      rw [writeMembers, List.length_append, List.length_cons] at hk
      rw [writeMembers, members?_step hm (by dsimp only; omega) (by rintro c ⟨⟩; simp)]
      rfl
    | cons n members =>
      rw [writeMembers_cons, List.length_append, List.length_append, List.length_cons,
        List.length_cons] at hk
      rw [writeMembers_cons, List.append_assoc, List.cons_append,
        members?_step hm (by dsimp only; omega) (by rintro c ⟨⟩; simp)]
      change (members? k (writeMembers (n :: members) ++ '\x7d' :: rest)).map _ = _
      rw [ih (List.cons_ne_nil _ _) hothers hmembers (by omega)]
      rfl

theorem value?_object {k : Nat} {cs rest : List Char} {members : List (JsonText × Json)}
    (h : members? k ('"' :: cs) = some (members, rest)) :
    value? (k + 1) ('\x7b' :: '"' :: cs) = some (.object members, rest) := by
  change (members? k ('"' :: cs)).map _ = _
  rw [h]
  rfl

theorem readsBack_object {members : List (JsonText × Json)}
    (hnames : ∀ m ∈ members, m.1.isSome = true) (h : ∀ m ∈ members, ReadsBack m.2) :
    ReadsBack (.object members) := by
  intro k rest hk _
  rw [write, List.length_append, List.length_cons, List.length_singleton] at hk
  obtain ⟨k, rfl⟩ : ∃ j, k = j + 1 := Nat.exists_eq_add_one.mpr (by omega)
  rw [write, List.cons_append, List.cons_append, List.append_assoc]
  cases members with
  | nil => rfl
  | cons m members =>
    obtain ⟨_ | name, v⟩ := m
    · cases hnames _ List.mem_cons_self
    have hread := members?_write (List.cons_ne_nil (some name, v) members) hnames h
      (by omega : _ < k) rest
    have hquote : ∃ cs, writeMembers ((some name, v) :: members) = '"' :: cs := by
      cases members with
      | nil => exact ⟨_, rfl⟩
      | cons n members => exact ⟨_, writeMembers_cons ..⟩
    obtain ⟨cs, hcs⟩ := hquote
    rw [hcs] at hread ⊢
    exact value?_object hread

/-! ## Values -/

theorem Legible.readsBack {v : Json} (h : v.Legible) : ReadsBack v := by
  induction h with
  | null => exact readsBack_null
  | bool b => exact readsBack_bool b
  | number h => exact readsBack_number h
  | text h =>
    obtain ⟨cs, rfl⟩ := Option.isSome_iff_exists.mp h
    exact readsBack_text cs
  | array h ih => exact readsBack_array (fun v hv => Legible.opens (h v hv)) ih
  | object names _ ih => exact readsBack_object names ih

theorem read?_write {v : Json} (h : v.Legible) : read? (write v) = some v := by
  have hread := h.readsBack (2 * (write v).length + 1) [] (by omega) nofun
  rw [List.append_nil] at hread
  rw [read?, hread]
  rfl

/-! ## What is read -/

section

variable {number : JsonNumber → Prop}

theorem scalar?_each (h : ∀ l : JsonLiteral, number l.toNumber) {cs rest : List Char} {v : Json}
    (hv : scalar? cs = some (v, rest)) : v.Each number fun _ => True := by
  unfold scalar? at hv
  split at hv
  all_goals
    obtain ⟨r, -, heq⟩ := Option.map_eq_some_iff.mp hv
    cases heq
  · exact .text trivial
  · exact .null
  · exact .bool true
  · exact .bool false
  · exact .number (h _)

/-- Of the values that a reader of JSON finds with fuel `k`, the numbers are as told. -/
structure ReadersEach (number : JsonNumber → Prop) (k : Nat) : Prop where
  value : ∀ {cs v r}, value? k cs = some (v, r) → v.Each number fun _ => True
  items : ∀ {cs items r}, items? k cs = some (items, r) → ∀ v ∈ items, v.Each number fun _ => True
  members : ∀ {cs members r}, members? k cs = some (members, r) →
    ∀ m ∈ members, m.2.Each number fun _ => True

theorem ReadersEach.value_succ (h : ∀ l : JsonLiteral, number l.toNumber) {k : Nat}
    (ih : ReadersEach number k) {cs rest : List Char} {v : Json}
    (hv : value? (k + 1) cs = some (v, rest)) : v.Each number fun _ => True := by
  unfold value? at hv
  split at hv
  · split at hv
    · cases hv
      exact .array nofun
    · obtain ⟨⟨items, tail⟩, hread, heq⟩ := Option.map_eq_some_iff.mp hv
      cases heq
      exact .array (ih.items hread)
  · split at hv
    · cases hv
      exact .object nofun nofun
    · obtain ⟨⟨members, tail⟩, hread, heq⟩ := Option.map_eq_some_iff.mp hv
      cases heq
      exact .object (fun _ _ => trivial) (ih.members hread)
  · exact scalar?_each h hv

theorem ReadersEach.items_succ {k : Nat} (ih : ReadersEach number k) {cs rest : List Char}
    {items : List Json} (hread : items? (k + 1) cs = some (items, rest)) :
    ∀ v ∈ items, v.Each number fun _ => True := by
  unfold items? at hread
  simp only [Option.bind_eq_bind, Option.bind_eq_some_iff] at hread
  obtain ⟨⟨v, tail⟩, hv, hread⟩ := hread
  have hfirst := ih.value hv
  split at hread
  · obtain ⟨⟨others, tail⟩, hothers, heq⟩ := Option.map_eq_some_iff.mp hread
    cases heq
    exact List.forall_mem_cons.mpr ⟨hfirst, ih.items hothers⟩
  · cases hread
    exact List.forall_mem_singleton.mpr hfirst
  · cases hread

theorem ReadersEach.members_succ {k : Nat} (ih : ReadersEach number k) {cs rest : List Char}
    {members : List (JsonText × Json)} (hread : members? (k + 1) cs = some (members, rest)) :
    ∀ m ∈ members, m.2.Each number fun _ => True := by
  unfold members? at hread
  split at hread
  · simp only [Option.bind_eq_bind, Option.bind_eq_some_iff] at hread
    obtain ⟨⟨name, tail⟩, -, hread⟩ := hread
    split at hread
    · simp only [Option.bind_eq_some_iff] at hread
      obtain ⟨⟨v, tail⟩, hv, hread⟩ := hread
      have hfirst := ih.value hv
      split at hread
      · obtain ⟨⟨others, tail⟩, hothers, heq⟩ := Option.map_eq_some_iff.mp hread
        cases heq
        exact List.forall_mem_cons.mpr ⟨hfirst, ih.members hothers⟩
      · cases hread
        exact List.forall_mem_singleton.mpr hfirst
      · cases hread
    · cases hread
  · cases hread

/-- One induction on the fuel for the three readers, which call each other. -/
theorem readers_each (h : ∀ l : JsonLiteral, number l.toNumber) (k : Nat) :
    ReadersEach number k := by
  induction k with
  | zero => exact ⟨nofun, nofun, nofun⟩
  | succ k ih => exact ⟨ih.value_succ h, ih.items_succ, ih.members_succ⟩

theorem read?_each (h : ∀ l : JsonLiteral, number l.toNumber) {cs : List Char} {v : Json}
    (hv : read? cs = some v) : v.Each number fun _ => True := by
  unfold read? at hv
  split at hv
  · rename_i hread
    split at hv
    · cases hv
      exact (readers_each h _).value hread
    · cases hv
  · cases hv

end

end PlaybackCues.Json
