import Abacus.Proofs.JsonText

/-!
# StandardCodec

The standard codec keeps the laws of codecs. It writes each record as its
fields say. Its readers go through a record field by field, so each of them
finds what was asked for; how deep a diagnostic stands inside a report
matters only for values that are passed over, which are too deep there only
if the whole report nests too deep.
-/

namespace Abacus

open Json

/-! ## Fields -/

namespace Json

variable {R α : Type} {name : String} {given : List (String × Json)} {own : List String} {r : R}
  {format : Format α}

theorem required?_of_finds {get : R → α}
    (h : (FieldDecl.plain name get format).Finds given own r) :
    required? given name format.decode? = some (get r) := by
  obtain ⟨j, hvalues, hread⟩ := h
  rw [required?, hvalues]
  exact hread

theorem defaulted?_of_finds {get : R → α} {absent : α}
    (h : (FieldDecl.defaulted name get absent format).Finds given own r) :
    defaulted? given name absent format.decode? = some (get r) := by
  obtain ⟨hvalues, habsent⟩ | ⟨j, hvalues, hread⟩ := h
  · rw [defaulted?, hvalues, habsent]
  · rw [defaulted?, hvalues]
    exact hread

/-- A field that may be `null` or missing is read in one way. -/
theorem orNull?_of_finds {value? : Option α}
    (h : ((valuesOf given name = [] ∨ valuesOf given name = [.null]) ∧ value? = none) ∨
      ∃ j v, valuesOf given name = [j] ∧ j ≠ .null ∧ format.decode? j = some v ∧ value? = some v) :
    defaulted? given name none (Format.orNull? format.decode?) = some value? := by
  obtain ⟨hvalues | hvalues, rfl⟩ | ⟨j, v, hvalues, hne, hread, rfl⟩ := h
  · rw [defaulted?, hvalues]
  · rw [defaulted?, hvalues]
    rfl
  · rw [defaulted?, hvalues]
    show Format.orNull? format.decode? j = _
    rw [Format.orNull?, hread]
    · rfl
    · exact hne

theorem required?_mono {decode? decode?' : Json → Option α} {a : α}
    (h : required? given name decode? = some a)
    (hmono : ∀ j, (name, j) ∈ given → decode? j = some a → decode?' j = some a) :
    required? given name decode?' = some a := by
  unfold required? at h ⊢
  split at h
  · rename_i j hvalues
    have hmem : j ∈ valuesOf given name := hvalues ▸ List.mem_cons_self
    obtain ⟨⟨name', j'⟩, hfield, rfl⟩ := List.mem_map.1 hmem
    obtain ⟨hfield, hname⟩ := List.mem_filter.1 hfield
    rw [beq_iff_eq] at hname
    exact hmono j' (hname ▸ hfield) h
  · cases h

theorem mapM_mono {decode? decode?' : Json → Option α} {items : List Json} {as : List α}
    (h : items.mapM decode? = some as)
    (hmono : ∀ item ∈ items, ∀ a, decode? item = some a → decode?' item = some a) :
    items.mapM decode?' = some as := by
  induction items generalizing as with
  | nil => exact h
  | cons item items ih =>
    rw [List.forall_mem_cons] at hmono
    simp only [List.mapM_cons, Option.bind_eq_bind, Option.bind_eq_some_iff] at h ⊢
    obtain ⟨a, ha, as, has, h⟩ := h
    exact ⟨a, hmono.1 a ha, as, ih has hmono.2, h⟩

end Json

/-! ## Depth -/

variable {depth depth' : Nat} {j : Json}

/-- How deep a diagnostic stands does not matter if it does not nest too
deep there. -/
theorem Diagnostic.ofJson?_of_fits {d : Diagnostic} (hfits : j.fits (nestingLimit - depth') = true)
    (h : ofJson? depth j = some d) : ofJson? depth' j = some d := by
  cases j with
  | object fields =>
    have hothers : fitsFields (nestingLimit - depth' - 1)
        (fields.filter fun field => !ownNames.contains field.1) = true :=
      fitsFields_iff.2 fun field hfield =>
        fitsFields_iff.1 (fitsFields_of_fits hfits) field (List.mem_filter.1 hfield).1
    simp only [ofJson?, Option.bind_eq_bind, Option.bind_eq_some_iff] at h ⊢
    obtain ⟨file, hfile, kind, hkind, code, hcode, category, hcategory, message, hmessage,
      sourceLine, hline, suggestion?, hsuggestion, span, hspan, h⟩ := h
    split at h
    · refine ⟨file, hfile, kind, hkind, code, hcode, category, hcategory, message, hmessage,
        sourceLine, hline, suggestion?, hsuggestion, span, hspan, ?_⟩
      rw [if_pos hothers]
      exact h
    · cases h
  | _ => cases h

theorem Diagnostic.mapM_of_fits {items : List Json} {ds : List Diagnostic}
    (hfits : fitsItems (nestingLimit - depth') items = true)
    (h : items.mapM (ofJson? depth) = some ds) : items.mapM (ofJson? depth') = some ds :=
  mapM_mono h fun item hitem _ hread =>
    ofJson?_of_fits (fitsItems_iff.1 hfits item hitem) hread

theorem Diagnostic.listOfJson?_of_fits {ds : List Diagnostic}
    (hfits : j.fits (nestingLimit - depth') = true) (h : listOfJson? depth j = some ds) :
    listOfJson? depth' j = some ds := by
  cases j with
  | array items => exact mapM_of_fits (fitsItems_of_fits hfits) h
  | _ => cases h

/-- The same holds of a log. -/
theorem DiagnosticLog.ofJson?_of_fits {log : DiagnosticLog}
    (hfits : j.fits (nestingLimit - depth') = true) (h : ofJson? depth j = some log) :
    ofJson? depth' j = some log := by
  cases j with
  | object fields =>
    have hfields := fitsFields_iff.1 (fitsFields_of_fits hfits)
    simp only [ofJson?, Option.bind_eq_bind, Option.bind_eq_some_iff] at h ⊢
    obtain ⟨stored, hstored, total, htotal, h⟩ := h
    refine ⟨stored, required?_mono hstored fun j hj hread => ?_, total, htotal, h⟩
    exact Diagnostic.listOfJson?_of_fits (hfields _ hj) hread
  | array items =>
    have hitems := fitsItems_iff.1 (fitsItems_of_fits hfits)
    match items with
    | [a, b] =>
      simp only [ofJson?, Option.bind_eq_bind, Option.bind_eq_some_iff] at h ⊢
      obtain ⟨stored, hstored, h⟩ := h
      exact ⟨stored, Diagnostic.listOfJson?_of_fits (hitems a List.mem_cons_self) hstored, h⟩
    | [] | [_] | _ :: _ :: _ :: _ => cases h
  | _ => cases h

/-! ## Records -/

theorem Span.decodesAs : format.DecodesAs fields := by
  intro given s _ h
  simp only [fields, List.forall_mem_cons] at h
  obtain ⟨hline, hcolumn, hendLine, hendColumn, -⟩ := h
  show ofFields? given = some s
  simp only [ofFields?, required?_of_finds hline, required?_of_finds hcolumn,
    required?_of_finds hendLine, required?_of_finds hendColumn, Option.bind_eq_bind,
    Option.bind_some]

theorem Limits.decodesAs : format.DecodesAs fields := by
  intro given l _ h
  simp only [fields, List.forall_mem_cons] at h
  obtain ⟨hdepth, htokens, hsteps, -⟩ := h
  show ofJson? (.object given) = some l
  have hsteps : defaulted? given "step_limit" standard.stepLimit? _ = some l.stepLimit? :=
    orNull?_of_finds hsteps
  simp only [ofJson?, defaulted?_of_finds hdepth, defaulted?_of_finds htokens, hsteps,
    Option.bind_eq_bind, Option.bind_some]

theorem Diagnostic.decodesAs :
    format.DecodesAs (fields FaultKind.format FaultCategory.format Span.format) := by
  intro given d hfits h
  have hothers : fitsFields (nestingLimit - 0 - 1)
      (given.filter fun field => !ownNames.contains field.1) = true :=
    fitsFields_iff.2 fun field hfield =>
      fitsFields_iff.1 (fitsFields_of_fits hfits) field (List.mem_filter.1 hfield).1
  simp only [fields, List.forall_mem_cons] at h
  obtain ⟨hfile, hkind, hcode, hcategory, hmessage, hspan, hline, hsuggestion, -⟩ := h
  have hspan : Span.ofFields? (given.filter fun field => !ownNames.contains field.1) =
      some d.span := hspan
  show ofJson? 0 (.object given) = some d
  have hkind := required?_of_finds hkind
  have hcategory := required?_of_finds hcategory
  simp only [FaultKind.format, FaultCategory.format] at hkind hcategory
  simp only [ofJson?, required?_of_finds hfile, hkind, required?_of_finds hcode, hcategory,
    required?_of_finds hmessage, required?_of_finds hline, orNull?_of_finds hsuggestion, hspan,
    hothers, Option.bind_eq_bind, Option.bind_some, if_true]

theorem DiagnosticLog.decodesAs : format.DecodesAs (fields Diagnostic.format) := by
  intro given log hfits h
  have hfields := fitsFields_iff.1 (fitsFields_of_fits hfits)
  simp only [fields, List.forall_mem_cons] at h
  obtain ⟨hstored, htotal, -⟩ := h
  have hstored : required? given "errors" (Diagnostic.listOfJson? 1) = some log.stored := by
    refine required?_mono (required?_of_finds hstored) fun j hj hread => ?_
    cases j with
    | array items => exact Diagnostic.mapM_of_fits (fitsItems_of_fits (hfields _ hj)) hread
    | _ => cases hread
  show ofJson? 0 (.object given) = some log
  simp only [ofJson?, hstored, required?_of_finds htotal, Option.bind_eq_bind, Option.bind_some]

theorem Report.decodesAs : format.DecodesAs (fields Number.format DiagnosticLog.format) := by
  intro given r hfits h
  have hfields := fitsFields_iff.1 (fitsFields_of_fits hfits)
  simp only [fields, List.forall_mem_cons] at h
  obtain ⟨hsuccess, hvalue, hdisplay, herrors, -⟩ := h
  have herrors : required? given "errors" (DiagnosticLog.ofJson? 1) = some r.errors :=
    required?_mono (required?_of_finds herrors) fun j hj hread =>
      DiagnosticLog.ofJson?_of_fits (hfields _ hj) hread
  have hvalue := orNull?_of_finds hvalue
  simp only [Number.format] at hvalue
  show ofJson? (.object given) = some r
  simp only [ofJson?, required?_of_finds hsuccess, hvalue, orNull?_of_finds hdisplay, herrors,
    Option.bind_eq_bind, Option.bind_some]

/-! ## Laws -/

namespace Json.Codec

theorem standard_encodesAsDeclared : standard.EncodesAsDeclared where
  kind _ := rfl
  category _ := rfl
  span _ := rfl
  limits _ := rfl
  number := by
    simp only [Number.variants, List.forall_mem_cons]
    exact ⟨fun _ => rfl, fun _ => rfl, by simp⟩
  diagnostic _ := rfl
  log _ := rfl
  report _ := rfl

theorem standard_decodesAsDeclared : standard.DecodesAsDeclared where
  kind _ := rfl
  category _ := rfl
  span := Span.decodesAs
  limits := Limits.decodesAs
  number j := by
    show ((Format.signed64.decode? j).map Number.integer).or _ = _
    rw [Number.variants, List.findSome?_cons]
    cases (Format.signed64.decode? j).map Number.integer with
    | some => rfl
    | none =>
      rw [List.findSome?_cons]
      cases (Format.double.decode? j).map Number.real <;> rfl
  diagnostic := Diagnostic.decodesAs
  log := DiagnosticLog.decodesAs
  report := Report.decodesAs

theorem standard_readsText : standard.ReadsText :=
  fun _ hlegible _ => ofText?_write hlegible

theorem standard_tellsPlain : standard.TellsPlain :=
  fun _ _ hplain hdefinite heq => write_injective hplain hdefinite heq

end Json.Codec

end Abacus
