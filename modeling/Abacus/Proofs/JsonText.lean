import Abacus.Proofs.WrittenJson

/-!
# JsonText

A JSON value is read back from the text that is written for it. What is
read of a text is exactly the value; so each kind of value is read back in
front of whatever comes after it, and arrays and objects are read back as
soon as what is in them is. The bound on how often the readers call each
other is never met: with each call they take at least one character.
-/

namespace Abacus.Json

variable {j item : Json} {items : List Json} {field : String × Json}
  {fields : List (String × Json)} {fuel : Nat} {c : Char} {rest : List Char}

/-- A value is read back, whatever comes after it: with two calls for each
of its characters to spend. -/
structure Reads (j : Json) : Prop where
  leads : ∀ rest, ∃ c cs, writeOnto j rest = c :: cs ∧ isSpace c = false ∧ c ≠ ']'
  longer : ∀ rest, rest.length < (writeOnto j rest).length
  value : ∀ fuel rest, EndsNumber rest →
    2 * (writeOnto j rest).length < fuel + 2 * rest.length →
    value? fuel (writeOnto j rest) = some (j, rest)

theorem skipSpace_cons (h : isSpace c = false) (cs : List Char) : skipSpace (c :: cs) = c :: cs :=
  List.dropWhile_cons_of_neg (by simp [h])

/-- A value is read back if it is once its first character is known. -/
theorem Reads.of_cons (c : Char) (more : List Char → List Char) (hspace : isSpace c = false)
    (hne : c ≠ ']') (htext : ∀ rest, writeOnto j rest = c :: more rest)
    (hlength : ∀ rest, rest.length ≤ (more rest).length)
    (hvalue : ∀ fuel rest, EndsNumber rest → 2 * (more rest).length < fuel + 2 * rest.length →
      value? (fuel + 1) (c :: more rest) = some (j, rest)) : Reads j where
  leads rest := ⟨c, more rest, htext rest, hspace, hne⟩
  longer rest := by
    rw [htext, List.length_cons]
    exact Nat.lt_succ_of_le (hlength rest)
  value fuel rest hrest hfuel := by
    rw [htext, List.length_cons] at hfuel
    have hle := hlength rest
    obtain ⟨fuel, rfl⟩ : ∃ n, fuel = n + 1 := Nat.exists_eq_add_one.2 (by omega)
    rw [htext]
    exact hvalue fuel rest hrest (by omega)

/-! ## Words and numbers -/

theorem reads_word (c : Char) (word : List Char) (hspace : isSpace c = false) (hne : c ≠ ']')
    (htext : ∀ rest, writeOnto j rest = c :: (word ++ rest))
    (hvalue : ∀ fuel rest, value? (fuel + 1) (c :: (word ++ rest)) = some (j, rest)) : Reads j :=
  .of_cons c (word ++ ·) hspace hne htext (fun rest => by rw [List.length_append]; omega)
    fun fuel rest _ _ => hvalue fuel rest

theorem reads_null : Reads null := by
  refine reads_word 'n' ['u', 'l', 'l'] rfl (by decide) (fun _ => rfl) ?_
  intro fuel rest
  rw [value?]
  rfl

theorem reads_bool (value : Bool) : Reads (bool value) := by
  cases value with
  | true =>
    refine reads_word 't' ['r', 'u', 'e'] rfl (by decide) (fun _ => rfl) ?_
    intro fuel rest
    rw [value?]
    rfl
  | false =>
    refine reads_word 'f' ['a', 'l', 's', 'e'] rfl (by decide) (fun _ => rfl) ?_
    intro fuel rest
    rw [value?]
    rfl

theorem isSpace_of_isDigit (hc : c.isDigit = true ∨ c = '-') : isSpace c = false := by
  refine Bool.not_eq_true _ ▸ fun hspace => ?_
  simp only [isSpace, Bool.or_eq_true, beq_iff_eq] at hspace
  rcases hspace with ((rfl | rfl) | rfl) | rfl <;> revert hc <;> decide

/-- What begins with a digit or a `-` is read as a number. -/
theorem value?_number (hc : c.isDigit = true ∨ c = '-') (cs : List Char) :
    value? (fuel + 1) (c :: cs) = number? (c :: cs) := by
  rw [value?, skipSpace_cons (isSpace_of_isDigit hc)]
  split <;> rename_i heq
  all_goals first
    | rfl
    | (cases heq; simp at hc)

/-- The text of a number is read as its value, whatever comes after it. -/
theorem value?_text {l : Literal} (h : l.Proper) (hrest : EndsNumber rest) :
    value? (fuel + 1) (l.text ++ rest) = some (l.value, rest) := by
  obtain ⟨c, cs, hcons, hc⟩ := h.exists_text_eq_cons
  have hnumber := number?_text h hrest
  rw [hcons] at hnumber ⊢
  exact (value?_number hc (cs ++ rest)).trans hnumber

theorem reads_number {l : Literal} (h : l.Proper)
    (htext : ∀ rest, writeOnto j rest = l.text ++ rest) (hvalue : l.value = j) : Reads j := by
  obtain ⟨c, cs, hcons, hc⟩ := h.exists_text_eq_cons
  refine .of_cons c (cs ++ ·) (isSpace_of_isDigit hc) ?_ ?_ ?_ ?_
  · rintro rfl
    simp at hc
  · intro rest
    rw [htext, hcons]
    rfl
  · intro rest
    rw [List.length_append]
    omega
  · intro fuel rest hrest _
    have hread : value? (fuel + 1) (l.text ++ rest) = _ := value?_text h hrest
    rw [hcons, hvalue] at hread
    exact hread

/-! ## Strings -/

theorem length_escapeOnto (c : Char) (rest : List Char) :
    rest.length < (escapeOnto c rest).length := by
  unfold escapeOnto
  repeat' split
  all_goals simp only [List.length_cons]; omega

theorem length_stringOnto (s : String) (rest : List Char) :
    rest.length + 2 ≤ (stringOnto s rest).length := by
  have hchars : ∀ cs : List Char,
      rest.length + 1 ≤ (cs.foldr escapeOnto ('"' :: rest)).length := by
    intro cs
    induction cs with
    | nil => exact Nat.le_refl _
    | cons c cs ih => exact Nat.le_trans ih (Nat.le_of_lt (length_escapeOnto c _))
  rw [stringOnto, List.length_cons]
  exact Nat.succ_le_succ (hchars s.toList)

theorem reads_string (value : String) : Reads (string value) := by
  refine .of_cons '"' (fun rest => value.toList.foldr escapeOnto ('"' :: rest)) rfl (by decide)
    (fun _ => rfl) ?_ ?_
  · intro rest
    have hlength := length_stringOnto value rest
    rw [stringOnto, List.length_cons] at hlength
    omega
  · intro fuel rest _ _
    rw [value?, skipSpace_cons rfl]
    simp only [string?_written, Option.map_some]

/-! ## Arrays -/

theorem length_itemsOnto (h : ∀ item ∈ items, Reads item) (rest : List Char) :
    rest.length ≤ (itemsOnto items rest).length := by
  induction items with
  | nil => exact Nat.le_refl _
  | cons item items ih =>
    obtain ⟨hitem, hitems⟩ := List.forall_mem_cons.1 h
    have hlonger := hitem.longer (itemsOnto items rest)
    have hrest := ih hitems
    rw [itemsOnto, List.length_cons]
    omega

/-- The items of an array are read back up to its end. -/
theorem items?_written (hitem : Reads item) (hitems : ∀ item ∈ items, Reads item)
    (hfuel : 2 * (writeOnto item (itemsOnto items (']' :: rest))).length <
      fuel + 2 * rest.length) :
    items? fuel (writeOnto item (itemsOnto items (']' :: rest))) = some (item :: items, rest) := by
  have hlonger := hitem.longer (itemsOnto items (']' :: rest))
  have hlength := length_itemsOnto hitems (']' :: rest)
  rw [List.length_cons] at hlength
  induction items generalizing item fuel with
  | nil =>
    obtain ⟨fuel, rfl⟩ : ∃ n, fuel = n + 1 := Nat.exists_eq_add_one.2 (by omega)
    have hvalue := hitem.value fuel _ (endsNumber_itemsOnto [] rest) (by omega)
    rw [items?, hvalue]
    rfl
  | cons next items ih =>
    obtain ⟨hnext, hitems⟩ := List.forall_mem_cons.1 hitems
    have hlonger' := hnext.longer (itemsOnto items (']' :: rest))
    have hlength' := length_itemsOnto hitems (']' :: rest)
    have hcons : (itemsOnto (next :: items) (']' :: rest)).length =
        (writeOnto next (itemsOnto items (']' :: rest))).length + 1 := rfl
    rw [List.length_cons] at hlength'
    obtain ⟨fuel, rfl⟩ : ∃ n, fuel = n + 1 := Nat.exists_eq_add_one.2 (by omega)
    have hvalue := hitem.value fuel _ (endsNumber_itemsOnto (next :: items) rest) (by omega)
    rw [items?, hvalue]
    show (items? fuel (writeOnto next _)).map _ = _
    rw [ih hnext hitems (by omega) hlonger' hlength']
    rfl

theorem reads_array (h : ∀ item ∈ items, Reads item) : Reads (array items) := by
  cases items with
  | nil =>
    refine reads_word '[' [']'] rfl (by decide) (fun _ => rfl) ?_
    intro fuel rest
    rw [value?]
    rfl
  | cons item items =>
    obtain ⟨hitem, hitems⟩ := List.forall_mem_cons.1 h
    refine .of_cons '[' (fun rest => writeOnto item (itemsOnto items (']' :: rest))) rfl
      (by decide) (fun _ => rfl) ?_ ?_
    · intro rest
      have hlonger := hitem.longer (itemsOnto items (']' :: rest))
      have hlength := length_itemsOnto hitems (']' :: rest)
      rw [List.length_cons] at hlength
      omega
    · intro fuel rest _ hfuel
      have hread := items?_written hitem hitems hfuel
      obtain ⟨c, cs, hcons, hspace, hne⟩ := hitem.leads (itemsOnto items (']' :: rest))
      rw [value?, skipSpace_cons rfl]
      simp only [hcons] at hread ⊢
      have hopen : afterWord? [']'] (skipSpace (c :: cs)) = none := by
        rw [skipSpace_cons hspace, afterWord?]
        simp [Ne.symm hne]
      simp only [hopen, hread, Option.map_some]

/-! ## Objects -/

/-- Writes one field. -/
def fieldOnto (field : String × Json) (rest : List Char) : List Char :=
  stringOnto field.1 (':' :: writeOnto field.2 rest)

theorem length_fieldOnto (field : String × Json) (rest : List Char) :
    (writeOnto field.2 rest).length + 3 ≤ (fieldOnto field rest).length :=
  length_stringOnto field.1 (':' :: writeOnto field.2 rest)

theorem length_fieldsOnto (h : ∀ field ∈ fields, Reads field.2) (rest : List Char) :
    rest.length ≤ (fieldsOnto fields rest).length := by
  induction fields with
  | nil => exact Nat.le_refl _
  | cons field fields ih =>
    obtain ⟨hfield, hfields⟩ := List.forall_mem_cons.1 h
    have hlonger := hfield.longer (fieldsOnto fields rest)
    have hlength := length_fieldOnto field (fieldsOnto fields rest)
    have hcons : (fieldsOnto (field :: fields) rest).length =
        (fieldOnto field (fieldsOnto fields rest)).length + 1 := rfl
    have hrest := ih hfields
    omega

theorem afterColon?_cons (text : List Char) : afterColon? (':' :: text) = some text := by
  rw [afterColon?, skipSpace_cons rfl]
  rfl

/-- The fields of an object are read back up to its end. -/
theorem fields?_written (hfield : Reads field.2) (hfields : ∀ field ∈ fields, Reads field.2)
    (hfuel : 2 * (fieldOnto field (fieldsOnto fields ('\x7d' :: rest))).length <
      fuel + 2 * rest.length) :
    fields? fuel (fieldOnto field (fieldsOnto fields ('\x7d' :: rest))) =
      some ((field :: fields).map fun field => (some field.1, field.2), rest) := by
  have hlonger := hfield.longer (fieldsOnto fields ('\x7d' :: rest))
  have hlength := length_fieldOnto field (fieldsOnto fields ('\x7d' :: rest))
  have hrest := length_fieldsOnto hfields ('\x7d' :: rest)
  rw [List.length_cons] at hrest
  induction fields generalizing field fuel with
  | nil =>
    obtain ⟨fuel, rfl⟩ : ∃ n, fuel = n + 1 := Nat.exists_eq_add_one.2 (by omega)
    have hread := hfield.value fuel _ (endsNumber_fieldsOnto [] rest) (by omega)
    rw [fieldOnto, fields?, stringOnto, skipSpace_cons rfl]
    simp only [string?_written, afterColon?_cons, Option.bind_some, hread]
    rfl
  | cons next fields ih =>
    obtain ⟨hnext, hfields⟩ := List.forall_mem_cons.1 hfields
    have hlonger' := hnext.longer (fieldsOnto fields ('\x7d' :: rest))
    have hlength' := length_fieldOnto next (fieldsOnto fields ('\x7d' :: rest))
    have hrest' := length_fieldsOnto hfields ('\x7d' :: rest)
    have hcons : (fieldsOnto (next :: fields) ('\x7d' :: rest)).length =
        (fieldOnto next (fieldsOnto fields ('\x7d' :: rest))).length + 1 := rfl
    rw [List.length_cons] at hrest'
    obtain ⟨fuel, rfl⟩ : ∃ n, fuel = n + 1 := Nat.exists_eq_add_one.2 (by omega)
    have hread := hfield.value fuel _ (endsNumber_fieldsOnto (next :: fields) rest) (by omega)
    rw [fieldOnto, fields?, stringOnto, skipSpace_cons rfl]
    simp only [string?_written, afterColon?_cons, Option.bind_some, hread]
    show (fields? fuel (fieldOnto next _)).map _ = _
    rw [ih hnext hfields (by omega) hlonger' hlength' hrest']
    rfl

theorem ofFields_map (fields : List (String × Json)) :
    ofFields (fields.map fun field => (some field.1, field.2)) = object fields := by
  unfold ofFields
  rw [Format.mapM_map_eq_some]
  intro field _
  rfl

theorem reads_object (h : ∀ field ∈ fields, Reads field.2) : Reads (object fields) := by
  cases fields with
  | nil =>
    refine reads_word '\x7b' ['\x7d'] rfl (by decide) (fun _ => rfl) ?_
    intro fuel rest
    rw [value?]
    rfl
  | cons field fields =>
    obtain ⟨hfield, hfields⟩ := List.forall_mem_cons.1 h
    refine .of_cons '\x7b' (fun rest => fieldOnto field (fieldsOnto fields ('\x7d' :: rest))) rfl
      (by decide) (fun _ => rfl) ?_ ?_
    · intro rest
      have hlonger := hfield.longer (fieldsOnto fields ('\x7d' :: rest))
      have hlength := length_fieldOnto field (fieldsOnto fields ('\x7d' :: rest))
      have hrest := length_fieldsOnto hfields ('\x7d' :: rest)
      rw [List.length_cons] at hrest
      omega
    · intro fuel rest _ hfuel
      have hread := fields?_written hfield hfields hfuel
      have hopen : afterWord? ['\x7d']
          (skipSpace (fieldOnto field (fieldsOnto fields ('\x7d' :: rest)))) = none := by
        rw [fieldOnto, stringOnto, skipSpace_cons rfl]
        rfl
      rw [value?, skipSpace_cons rfl]
      simp only [hopen, hread, Option.map_some, ofFields_map]

/-! ## Doubles -/

/-- The digits that are written for a double are read as the same double. -/
def ReadsBack (x : Double) : Prop :=
  ∀ l ∈ literal? (realText x), l.real = .real x

/-- Whether a value is a given double. -/
def isReal (x : Double) : Json → Bool
  | real y => y = x
  | _ => false

theorem isReal_iff {x : Double} : isReal x j = true ↔ j = .real x := by
  cases j <;> simp [isReal]

instance (x : Double) : Decidable (ReadsBack x) :=
  decidable_of_iff ((literal? (realText x)).all (isReal x ·.real) = true) <| by
    simp only [Option.all_eq_true, ReadsBack, isReal_iff, Option.mem_def]

/-- **A double survives if its digits are read as the same double.** -/
theorem survives_iff {x : Double} :
    Codec.standard.Survives x ↔ x.isFinite = true ∧ ReadsBack x := by
  have hread : ∀ l : Literal, l.Proper → l.Broken → realText x = l.text →
      (Codec.standard.read? (Codec.standard.write (.real x)) = some (.real x) ↔
        l.real = .real x) := by
    intro l hproper hbroken htext
    show ofText? (String.ofList (realText x ++ [])).toList = _ ↔ _
    rw [String.toList_ofList, htext, ofText?, value?_text hproper endsNumber_nil,
      l.value_of_broken hbroken]
    exact Option.some_inj
  constructor
  · rintro ⟨hfinite, hsurvives⟩
    obtain ⟨l, hproper, hbroken, htext⟩ := exists_text_realText hfinite
    refine ⟨hfinite, fun l' hl' => ?_⟩
    rw [htext, literal?_text hproper] at hl'
    cases hl'
    exact (hread l hproper hbroken htext).1 hsurvives
  · rintro ⟨hfinite, hback⟩
    obtain ⟨l, hproper, hbroken, htext⟩ := exists_text_realText hfinite
    refine ⟨hfinite, (hread l hproper hbroken htext).2 (hback l ?_)⟩
    rw [htext, literal?_text hproper]
    rfl

/-! ## Texts -/

/-- **A value is read back in front of whatever comes after it.** -/
theorem reads_of_legible (h : Codec.standard.Legible j) : Reads j := by
  induction h with
  | null => exact reads_null
  | bool value => exact reads_bool value
  | integer h =>
    refine reads_number (proper_ofInteger _) (fun rest => ?_) (value_ofInteger h)
    rw [writeOnto, text_ofInteger]
  | real h =>
    obtain ⟨hfinite, hback⟩ := survives_iff.1 h
    obtain ⟨l, hproper, hbroken, htext⟩ := exists_text_realText hfinite
    refine reads_number hproper (fun rest => by rw [writeOnto, htext]) ?_
    rw [Literal.value_of_broken hbroken]
    exact hback l (by rw [htext, literal?_text hproper]; rfl)
  | string value => exact reads_string value
  | array _ ih => exact reads_array ih
  | object _ ih => exact reads_object ih

/-- **A text is read as the value that it was written for.** -/
theorem ofText?_write (h : Codec.standard.Legible j) : ofText? j.write.toList = some j := by
  have hvalue := (reads_of_legible h).value (2 * (writeOnto j []).length + 2) [] endsNumber_nil
    (by rw [List.length_nil]; omega)
  rw [write, String.toList_ofList, ofText?, hvalue]
  rfl

end Abacus.Json
