import Abacus.Proofs.JsonNumbers

/-!
# WrittenJson

What the text of a JSON value tells of the value. A written string is read
back, whatever its characters. And the text of a value without doubles is
that of no other value, however large the whole numbers in it are: where two
values begin the same text they are the same, as long as nothing comes after
them that a number could go on with.
-/

namespace Abacus.Json

/-! ## Strings -/

/-- A piece of a string that reads as the character `c`. -/
structure Spells (piece : Piece) (c : Char) : Prop where
  pieces : ∀ rest, pieces? (escapeOnto c rest) =
    (pieces? rest).map fun found => (piece :: found.1, found.2)
  chars : ∀ pieces, chars? (piece :: pieces) = (chars? pieces).map (c :: ·)

theorem hexValue?_digitChar : ∀ d, d < 16 → hexValue? (Nat.digitChar d) = some d := by
  decide

/-- The four digits of a character that is escaped as a code unit. -/
theorem unit?_hexDigit {n : Nat} (h : n < 32) :
    unit? '0' '0' (hexDigit (n / 16)) (hexDigit n) = some n := by
  have hzero : hexValue? '0' = some 0 := by decide
  have hhigh := hexValue?_digitChar (n / 16 % 16) (by omega)
  have hlow := hexValue?_digitChar (n % 16) (by omega)
  rw [unit?, hzero, hexDigit, hexDigit, hhigh, hlow]
  show some _ = some n
  rw [Option.some.injEq]
  omega

theorem pieces?_unit {a b c d : Char} {n : Nat} (h : unit? a b c d = some n) (rest : List Char) :
    pieces? ('\\' :: 'u' :: a :: b :: c :: d :: rest) =
      (pieces? rest).map fun found => (.unit n :: found.1, found.2) := by
  rw [pieces?, h]
  cases pieces? rest <;> rfl

theorem pieces?_escaped {e c : Char} (he : e ≠ 'u') (h : escaped? e = some c)
    (rest : List Char) :
    pieces? ('\\' :: e :: rest) =
      (pieces? rest).map fun found => (.char c :: found.1, found.2) := by
  rw [pieces?]
  · rw [h]
    cases pieces? rest <;> rfl
  · intro a b c d rest hu
    exact absurd hu he

theorem pieces?_char {c : Char} (hquote : c ≠ '"') (hslash : c ≠ '\\') (h : ¬ c.toNat < 0x20)
    (rest : List Char) :
    pieces? (c :: rest) = (pieces? rest).map fun found => (.char c :: found.1, found.2) := by
  rw [pieces?.eq_def]
  split <;> simp_all
  cases pieces? _ <;> simp_all

/-- The characters with an escape of one letter. -/
def shortEscapes : List (Char × Char) :=
  [('"', '"'), ('\\', '\\'), ('\x08', 'b'), ('\t', 't'), ('\n', 'n'), ('\x0c', 'f'), ('\r', 'r')]

theorem escapeOnto_short : ∀ p ∈ shortEscapes, p.2 ≠ 'u' ∧ escaped? p.2 = some p.1 ∧
    ∀ rest, escapeOnto p.1 rest = '\\' :: p.2 :: rest := by
  simp [shortEscapes, escapeOnto, escaped?]

theorem escapeOnto_of_not_short {c : Char} (h : ∀ p ∈ shortEscapes, c ≠ p.1) (rest : List Char) :
    escapeOnto c rest =
      if c.toNat < 0x20 then
        '\\' :: 'u' :: '0' :: '0' :: hexDigit (c.toNat / 16) :: hexDigit c.toNat :: rest
      else c :: rest := by
  simp only [shortEscapes, List.forall_mem_cons] at h
  obtain ⟨hquote, hslash, hback, htab, hfeed, hform, hreturn, -⟩ := h
  rw [escapeOnto, if_neg hquote, if_neg hslash, if_neg hback, if_neg htab, if_neg hfeed,
    if_neg hform, if_neg hreturn]

/-- Every character is spelled by what is written for it. -/
theorem exists_spells (c : Char) : ∃ piece, Spells piece c := by
  have hchar : ∀ pieces, chars? (.char c :: pieces) = (chars? pieces).map (c :: ·) :=
    fun _ => rfl
  by_cases hshort : ∃ p ∈ shortEscapes, c = p.1
  · obtain ⟨p, hp, rfl⟩ := hshort
    obtain ⟨hne, hletter, hescape⟩ := escapeOnto_short p hp
    refine ⟨.char p.1, fun rest => ?_, hchar⟩
    rw [hescape, pieces?_escaped hne hletter]
  · have hlong : ∀ p ∈ shortEscapes, c ≠ p.1 := fun p hp hc => hshort ⟨p, hp, hc⟩
    by_cases hcontrol : c.toNat < 0x20
    · refine ⟨.unit c.toNat, fun rest => ?_, fun pieces => ?_⟩
      · rw [escapeOnto_of_not_short hlong, if_pos hcontrol, pieces?_unit (unit?_hexDigit hcontrol)]
      · have hlow : isLow c.toNat = false := by
          simp only [isLow, Bool.and_eq_false_iff, decide_eq_false_iff_not]
          omega
        have hhigh : isHigh c.toNat = false := by
          simp only [isHigh, Bool.and_eq_false_iff, decide_eq_false_iff_not]
          omega
        rw [chars?.eq_def]
        simp only [hlow, hhigh, Bool.false_eq_true, if_false, Char.ofNat_toNat]
    · have hquote : c ≠ '"' := hlong ('"', '"') List.mem_cons_self
      have hslash : c ≠ '\\' :=
        hlong ('\\', '\\') (List.mem_cons_of_mem _ List.mem_cons_self)
      refine ⟨.char c, fun rest => ?_, hchar⟩
      rw [escapeOnto_of_not_short hlong, if_neg hcontrol, pieces?_char hquote hslash hcontrol]

/-- **A written string is read back**, and what comes after it is left. -/
theorem string?_written (s : String) (rest : List Char) :
    string? (s.toList.foldr escapeOnto ('"' :: rest)) = some (some s, rest) := by
  have hread : ∀ cs : List Char, ∃ pieces,
      pieces? (cs.foldr escapeOnto ('"' :: rest)) = some (pieces, rest) ∧
        chars? pieces = some cs := by
    intro cs
    induction cs with
    | nil => exact ⟨[], by rw [List.foldr_nil, pieces?], rfl⟩
    | cons c cs ih =>
      obtain ⟨pieces, hpieces, hchars⟩ := ih
      obtain ⟨piece, spells⟩ := exists_spells c
      refine ⟨piece :: pieces, ?_, ?_⟩
      · rw [List.foldr_cons, spells.pieces, hpieces]
        rfl
      · rw [spells.chars, hchars]
        rfl
  obtain ⟨pieces, hpieces, hchars⟩ := hread s.toList
  rw [string?, hpieces]
  show some ((chars? pieces).map String.ofList, rest) = _
  rw [hchars, Option.map_some, String.ofList_toList]

theorem stringOnto_inj {s s' : String} {rest rest' : List Char}
    (h : stringOnto s rest = stringOnto s' rest') : s = s' ∧ rest = rest' := by
  have hread := congrArg string? (List.cons.inj h).2
  rw [string?_written, string?_written] at hread
  simpa using hread

/-! ## Numbers -/

variable {rest rest' : List Char}

theorem integerText_append_inj {m n : Int} (hrest : EndsNumber rest) (hrest' : EndsNumber rest')
    (h : integerText m ++ rest = integerText n ++ rest') : m = n ∧ rest = rest' := by
  rw [← text_ofInteger, ← text_ofInteger] at h
  obtain ⟨hparts, hrests⟩ :=
    (proper_ofInteger m).append_inj (proper_ofInteger n) hrest hrest' h
  exact ⟨ofInteger_injective hparts, hrests⟩

/-- The text of a whole number is not that of a double. -/
theorem integerText_append_ne {x : Double} (hfinite : x.isFinite = true) (n : Int)
    (hrest : EndsNumber rest) (hrest' : EndsNumber rest') :
    integerText n ++ rest ≠ realText x ++ rest' := by
  intro h
  obtain ⟨l, hproper, hbroken, htext⟩ := exists_text_realText hfinite
  rw [← text_ofInteger, htext] at h
  obtain ⟨rfl, -⟩ := (proper_ofInteger n).append_inj hproper hrest hrest' h
  exact not_broken_ofInteger n hbroken

/-! ## Values -/

theorem Plain.definite {j : Json} (h : Plain j) : Definite j := by
  induction h with
  | null => exact .null
  | bool value => exact .bool value
  | integer value => exact .integer value
  | string value => exact .string value
  | array _ ih => exact .array ih
  | object _ ih => exact .object ih

/-- The character a text begins with, all numbers beginning alike. -/
def lead : Json → Char
  | bool true => 't'
  | bool false => 'f'
  | integer _ | real _ => '0'
  | string _ => '"'
  | array _ => '['
  | object _ => '\x7b'
  | _ => 'n'

/-- What the first character of a text tells. -/
def leadOf (c : Char) : Char :=
  if c.isDigit = true ∨ c = '-' then '0' else c

variable {j j' : Json} {items items' : List Json} {fields fields' : List (String × Json)}

/-- The value can be told from the text that begins with it. -/
def Readable (j : Json) : Prop :=
  ∀ (j' : Json) (rest rest' : List Char), Definite j' → EndsNumber rest → EndsNumber rest' →
    writeOnto j rest = writeOnto j' rest' → j = j' ∧ rest = rest'

theorem Definite.exists_leadOf (h : Definite j) (rest : List Char) :
    ∃ c cs, writeOnto j rest = c :: cs ∧ leadOf c = lead j := by
  cases h with
  | null => exact ⟨'n', _, rfl, rfl⟩
  | bool value => cases value with
    | true => exact ⟨'t', _, rfl, rfl⟩
    | false => exact ⟨'f', _, rfl, rfl⟩
  | integer value =>
    obtain ⟨c, cs, hcons, hc⟩ := (proper_ofInteger value).exists_text_eq_cons
    refine ⟨c, cs ++ rest, ?_, if_pos hc⟩
    rw [writeOnto, ← text_ofInteger, hcons, List.cons_append]
  | real finite =>
    obtain ⟨l, hproper, -, htext⟩ := exists_text_realText finite
    obtain ⟨c, cs, hcons, hc⟩ := hproper.exists_text_eq_cons
    refine ⟨c, cs ++ rest, ?_, if_pos hc⟩
    rw [writeOnto, htext, hcons, List.cons_append]
  | string value => exact ⟨'"', _, rfl, rfl⟩
  | @array items _ => cases items with
    | nil => exact ⟨'[', _, rfl, rfl⟩
    | cons => exact ⟨'[', _, rfl, rfl⟩
  | @object fields _ => cases fields with
    | nil => exact ⟨'\x7b', _, rfl, rfl⟩
    | cons => exact ⟨'\x7b', _, rfl, rfl⟩

theorem lead_eq (h : Definite j) (h' : Definite j') (heq : writeOnto j rest = writeOnto j' rest') :
    lead j = lead j' := by
  obtain ⟨c, cs, hcons, hlead⟩ := h.exists_leadOf rest
  obtain ⟨c', cs', hcons', hlead'⟩ := h'.exists_leadOf rest'
  rw [hcons, hcons'] at heq
  rw [← hlead, ← hlead', (List.cons.inj heq).1]

/-- No text begins where an array ends. -/
theorem Definite.writeOnto_ne (h : Definite j) (cs : List Char) : writeOnto j rest ≠ ']' :: cs := by
  intro heq
  obtain ⟨c, cs', hcons, hlead⟩ := h.exists_leadOf rest
  rw [hcons] at heq
  cases heq
  cases h with
  | bool value => cases value <;> simp [lead, leadOf] at hlead
  | _ => simp [lead, leadOf] at hlead

/-! ## Arrays and objects -/

theorem endsNumber_itemsOnto (items : List Json) (rest : List Char) :
    EndsNumber (itemsOnto items (']' :: rest)) := by
  cases items <;> exact endsNumber_cons (by decide) _

theorem endsNumber_fieldsOnto (fields : List (String × Json)) (rest : List Char) :
    EndsNumber (fieldsOnto fields ('\x7d' :: rest)) := by
  cases fields <;> exact endsNumber_cons (by decide) _

theorem itemsOnto_inj (ih : ∀ item ∈ items, Readable item) (h' : ∀ item ∈ items', Definite item)
    (heq : itemsOnto items (']' :: rest) = itemsOnto items' (']' :: rest')) :
    items = items' ∧ rest = rest' := by
  induction items generalizing items' with
  | nil => cases items' with
    | nil => exact ⟨rfl, (List.cons.inj heq).2⟩
    | cons => cases heq
  | cons item items ihitems => cases items' with
    | nil => cases heq
    | cons item' items' =>
      rw [List.forall_mem_cons] at ih h'
      obtain ⟨hitem, hitems⟩ := ih.1 item' _ _ h'.1 (endsNumber_itemsOnto _ _)
        (endsNumber_itemsOnto _ _) (List.cons.inj heq).2
      obtain ⟨rfl, hrest⟩ := ihitems ih.2 h'.2 hitems
      exact ⟨by rw [hitem], hrest⟩

theorem fieldsOnto_inj (ih : ∀ field ∈ fields, Readable field.2)
    (h' : ∀ field ∈ fields', Definite field.2)
    (heq : fieldsOnto fields ('\x7d' :: rest) = fieldsOnto fields' ('\x7d' :: rest')) :
    fields = fields' ∧ rest = rest' := by
  induction fields generalizing fields' with
  | nil => cases fields' with
    | nil => exact ⟨rfl, (List.cons.inj heq).2⟩
    | cons => cases heq
  | cons field fields ihfields => cases fields' with
    | nil => cases heq
    | cons field' fields' =>
      obtain ⟨name, value⟩ := field
      obtain ⟨name', value'⟩ := field'
      rw [List.forall_mem_cons] at ih h'
      obtain ⟨rfl, hfield⟩ := stringOnto_inj (List.cons.inj heq).2
      obtain ⟨hvalue, hfields⟩ := ih.1 value' _ _ h'.1 (endsNumber_fieldsOnto _ _)
        (endsNumber_fieldsOnto _ _) (List.cons.inj hfield).2
      obtain ⟨rfl, hrest⟩ := ihfields ih.2 h'.2 hfields
      simp only at hvalue
      exact ⟨by rw [hvalue], hrest⟩

/-- Arrays are told apart: but for the first `,` one is written as its items
are. -/
theorem array_inj (ih : ∀ item ∈ items, Readable item) (h : ∀ item ∈ items, Definite item)
    (h' : ∀ item ∈ items', Definite item)
    (heq : writeOnto (array items) rest = writeOnto (array items') rest') :
    items = items' ∧ rest = rest' := by
  cases items with
  | nil => cases items' with
    | nil => exact ⟨rfl, (List.cons.inj (List.cons.inj heq).2).2⟩
    | cons item' items' =>
      rw [List.forall_mem_cons] at h'
      exact absurd (List.cons.inj heq).2.symm (h'.1.writeOnto_ne _)
  | cons item items => cases items' with
    | nil =>
      rw [List.forall_mem_cons] at h
      exact absurd (List.cons.inj heq).2 (h.1.writeOnto_ne _)
    | cons item' items' =>
      have hitems : itemsOnto (item :: items) (']' :: rest) =
          itemsOnto (item' :: items') (']' :: rest') :=
        congrArg (',' :: ·) (List.cons.inj heq).2
      exact itemsOnto_inj ih h' hitems

/-- Objects are told apart in the same way. -/
theorem object_inj (ih : ∀ field ∈ fields, Readable field.2)
    (h' : ∀ field ∈ fields', Definite field.2)
    (heq : writeOnto (object fields) rest = writeOnto (object fields') rest') :
    fields = fields' ∧ rest = rest' := by
  cases fields with
  | nil => cases fields' with
    | nil => exact ⟨rfl, (List.cons.inj (List.cons.inj heq).2).2⟩
    | cons => cases heq
  | cons field fields => cases fields' with
    | nil => cases heq
    | cons field' fields' =>
      have hfields : fieldsOnto (field :: fields) ('\x7d' :: rest) =
          fieldsOnto (field' :: fields') ('\x7d' :: rest') :=
        congrArg (',' :: ·) (List.cons.inj heq).2
      exact fieldsOnto_inj ih h' hfields

/-- **A value without doubles is told apart from others by its text**,
whatever comes after it. -/
theorem Plain.readable (h : Plain j) : Readable j := by
  induction h with
  | null =>
    intro j' rest rest' h' hrest hrest' heq
    have hlead := lead_eq .null h' heq
    cases h' with
    | null => exact ⟨rfl, List.append_cancel_left heq⟩
    | bool value' => cases value' <;> simp [lead] at hlead
    | _ => simp [lead] at hlead
  | bool value =>
    intro j' rest rest' h' hrest hrest' heq
    have hlead := lead_eq (.bool value) h' heq
    cases h' with
    | bool value' =>
      obtain rfl : value = value' := by
        cases value <;> cases value' <;> simp [lead] at hlead ⊢
      refine ⟨rfl, ?_⟩
      cases value <;> exact List.append_cancel_left heq
    | _ => cases value <;> simp [lead] at hlead
  | integer value =>
    intro j' rest rest' h' hrest hrest' heq
    have hlead := lead_eq (.integer value) h' heq
    cases h' with
    | integer value' =>
      obtain ⟨rfl, hrest⟩ := integerText_append_inj hrest hrest' heq
      exact ⟨rfl, hrest⟩
    | real finite => exact absurd heq (integerText_append_ne finite value hrest hrest')
    | bool value' => cases value' <;> simp [lead] at hlead
    | _ => simp [lead] at hlead
  | string value =>
    intro j' rest rest' h' hrest hrest' heq
    have hlead := lead_eq (.string value) h' heq
    cases h' with
    | string value' =>
      obtain ⟨rfl, hrest⟩ := stringOnto_inj heq
      exact ⟨rfl, hrest⟩
    | bool value' => cases value' <;> simp [lead] at hlead
    | _ => simp [lead] at hlead
  | @array items plain ih =>
    intro j' rest rest' h' hrest hrest' heq
    have hlead := lead_eq (Plain.array plain).definite h' heq
    cases h' with
    | array definite' =>
      obtain ⟨rfl, hrest⟩ := array_inj ih (fun item hitem => (plain item hitem).definite)
        definite' heq
      exact ⟨rfl, hrest⟩
    | bool value' => cases value' <;> simp [lead] at hlead
    | _ => simp [lead] at hlead
  | @object fields plain ih =>
    intro j' rest rest' h' hrest hrest' heq
    have hlead := lead_eq (Plain.object plain).definite h' heq
    cases h' with
    | object definite' =>
      obtain ⟨rfl, hrest⟩ := object_inj ih definite' heq
      exact ⟨rfl, hrest⟩
    | bool value' => cases value' <;> simp [lead] at hlead
    | _ => simp [lead] at hlead

/-- **A text of a value without doubles is the text of no other value.** -/
theorem write_injective (h : Plain j) (h' : Definite j') (heq : j.write = j'.write) : j = j' := by
  have htext : writeOnto j [] = writeOnto j' [] := String.ofList_injective heq
  exact (h.readable j' [] [] h' endsNumber_nil endsNumber_nil htext).1

end Abacus.Json
