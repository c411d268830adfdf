import Abacus.Proofs.StandardCodec
import Mathlib.Data.List.Nodup
import Mathlib.Tactic.Tauto

/-!
# Decoding

Every record that callers can ask for is read back from its JSON text, by any
codec that goes by what the records declare. What a record declares is enough
for that when its names are distinct, a flattened record brings in none of
them, and each field is read back by itself. The numbers have to fit the
widths that are declared, and a double has to be finite and to survive being
written in digits; nothing has to fit together beyond that.
-/

namespace Abacus

open Json

/-! ## What can be written -/

/-- The limit on nesting has 32 bits, and the others have 64. -/
structure Limits.Fits (l : Limits) : Prop where
  maxDepth : l.maxDepth < UInt32.size
  maxTokens : l.maxTokens < wordLimit
  stepLimit : ∀ limit ∈ l.stepLimit?, limit < wordLimit

/-- The code has 16 bits. -/
def Diagnostic.Fits (d : Diagnostic) : Prop :=
  d.code.number < 65536

/-- The diagnostics that are kept fit, and their number has 64 bits. -/
structure DiagnosticLog.Fits (log : DiagnosticLog) : Prop where
  stored : ∀ d ∈ log.stored, d.Fits
  total : log.total < wordLimit

/-- A double survives being written. -/
def Number.Fits (codec : Codec) : Number → Prop
  | integer _ => True
  | real x => codec.Survives x

/-- The result fits if there is one, and the log fits. -/
structure Report.Fits (codec : Codec) (r : Report) : Prop where
  value : ∀ value ∈ r.value?, value.Fits codec
  errors : r.errors.Fits

namespace Json

variable {R α : Type} {codec : Codec} {format : Format α} {a : α} {r : R}
  {fields : List (FieldDecl R)} {field : FieldDecl R} {name : String} {room n : Nat}

/-! ## Names -/

namespace FieldDecl

/-- The fields of a record can be told apart in its object: its own names are
distinct, and at most one record is flattened and has none of them. -/
structure Distinct (fields : List (FieldDecl R)) (r : R) : Prop where
  own : (ownNames fields).Nodup
  others : ∀ p ∈ (fields.filter fun field => field.name?.isNone).flatMap (written r),
    p.1 ∉ ownNames fields
  alone : (fields.filter fun field => field.name?.isNone).length ≤ 1

/-- A record with no other in it needs distinct names only. -/
theorem Distinct.of_named (hown : (ownNames fields).Nodup)
    (hnone : fields.filter (fun field => field.name?.isNone) = []) : Distinct fields r where
  own := hown
  others := by simp [hnone]
  alone := by simp [hnone]

theorem Distinct.notMem_ownNames (h : Distinct fields r) (hfield : field ∈ fields)
    (hname : field.name? = none) {p : String × Json} (hp : p ∈ field.written r) :
    p.1 ∉ ownNames fields :=
  h.others p (List.mem_flatMap.2 ⟨field, List.mem_filter.2 ⟨hfield, by rw [hname]; rfl⟩, hp⟩)

theorem name_of_mem_written (hname : field.name? = some name) {p : String × Json}
    (hp : p ∈ field.written r) : p.1 = name := by
  cases field with
  | plain | defaulted | nullable =>
    cases hname
    rw [List.mem_singleton.1 hp]
  | optional optionalName get format =>
    cases hname
    cases hget : get r with
    | none => simp [written, hget] at hp
    | some value =>
      simp only [written, hget, List.mem_singleton] at hp
      rw [hp]
  | flattened => cases hname

theorem mem_ownNames (hfield : field ∈ fields) (hname : field.name? = some name) :
    name ∈ ownNames fields :=
  List.mem_filterMap.2 ⟨field, hfield, hname⟩

/-- What has a name is written by the field with this name. -/
theorem valuesOf_written (h : Distinct fields r) (hfield : field ∈ fields)
    (hname : field.name? = some name) :
    valuesOf (fields.flatMap (written r)) name = (field.written r).map Prod.snd := by
  have hown := h.own
  have hmem := mem_ownNames hfield hname
  have hothers : ∀ other ∈ fields, other.name? = none → ∀ p ∈ other.written r, p.1 ≠ name :=
    fun other hother hnone p hp heq => h.notMem_ownNames hother hnone hp (heq ▸ hmem)
  obtain ⟨before, after, rfl⟩ := List.append_of_mem hfield
  rw [ownNames, List.filterMap_append, List.filterMap_cons_some hname, List.nodup_middle,
    List.nodup_cons] at hown
  -- no other field writes under this name
  have hnone : ∀ other ∈ before ++ after, ∀ p ∈ other.written r, ¬ (p.1 == name) = true := by
    intro other hother p hp heq
    have heq := beq_iff_eq.1 heq
    cases hothername : other.name? with
    | none =>
      refine hothers other ?_ hothername p hp heq
      simp only [List.mem_append, List.mem_cons] at hother ⊢
      tauto
    | some otherName =>
      obtain rfl := (name_of_mem_written hothername hp).symm.trans heq
      refine hown.1 ?_
      rw [← List.filterMap_append]
      exact mem_ownNames hother hothername
  have hsome : ∀ p ∈ field.written r, (p.1 == name) = true := fun p hp =>
    beq_iff_eq.2 (name_of_mem_written hname hp)
  simp only [List.mem_append, or_imp, forall_and] at hnone
  rw [valuesOf, List.flatMap_append, List.flatMap_cons, List.filter_append, List.filter_append,
    List.filter_eq_self.2 hsome, List.filter_eq_nil_iff.2, List.filter_eq_nil_iff.2,
    List.nil_append, List.append_nil]
  · intro p hp
    obtain ⟨other, hother, hp⟩ := List.mem_flatMap.1 hp
    exact hnone.2 other hother p hp
  · intro p hp
    obtain ⟨other, hother, hp⟩ := List.mem_flatMap.1 hp
    exact hnone.1 other hother p hp

/-- What has none of a record's own names is written by its flattened
records. -/
theorem filter_written (h : Distinct fields r) :
    (fields.flatMap (written r)).filter (fun p => !(ownNames fields).contains p.1) =
      (fields.filter fun field => field.name?.isNone).flatMap (written r) := by
  have hfield : ∀ field ∈ fields,
      (field.written r).filter (fun p => !(ownNames fields).contains p.1) =
        if field.name?.isNone = true then field.written r else [] := by
    intro field hfield
    cases hname : field.name? with
    | none =>
      refine List.filter_eq_self.2 fun p hp => ?_
      simpa using h.notMem_ownNames hfield hname hp
    | some name =>
      refine List.filter_eq_nil_iff.2 fun p hp => ?_
      have hmem := mem_ownNames hfield hname
      rw [name_of_mem_written hname hp]
      simpa using hmem
  rw [List.filter_flatMap, List.flatMap_congr hfield]
  clear hfield h
  induction fields with
  | nil => rfl
  | cons field fields ih =>
    rw [List.flatMap_cons, ih, List.filter_cons]
    split <;> rfl

end FieldDecl

/-! ## What gets through -/

/-- What does not nest too deep stays so where more is allowed. -/
theorem Codec.Legible.fits_mono {j : Json} (h : codec.Legible j) {room' : Nat}
    (hle : room ≤ room') (hfits : j.fits room = true) : j.fits room' = true := by
  induction h generalizing room room' with
  | null | bool | integer | real | string => rw [fits.eq_def]
  | array _ ih =>
    cases room with
    | zero => simp [fits] at hfits
    | succ room =>
      obtain ⟨room', rfl⟩ := Nat.exists_eq_add_one.2 (Nat.lt_of_lt_of_le room.succ_pos hle)
      rw [fits, fitsItems_iff] at hfits ⊢
      exact fun item hitem => ih item hitem (Nat.le_of_succ_le_succ hle) (hfits item hitem)
  | object _ ih =>
    cases room with
    | zero => simp [fits] at hfits
    | succ room =>
      obtain ⟨room', rfl⟩ := Nat.exists_eq_add_one.2 (Nat.lt_of_lt_of_le room.succ_pos hle)
      rw [fits, fitsFields_iff] at hfits ⊢
      exact fun p hp => ih p hp (Nat.le_of_succ_le_succ hle) (hfits p hp)

/-- A value gets through its format: it is found in its JSON value, and this
is read back itself where `room` arrays and objects may nest. -/
structure Codec.Conveys (codec : Codec) (room : Nat) (format : Format α) (a : α) : Prop where
  returns : format.Returns a
  legible : codec.Legible (format.encode a)
  fits : (format.encode a).fits room = true

/-- The value of a field gets through, if there is one. -/
def FieldDecl.Conveyed (codec : Codec) (room : Nat) (r : R) : FieldDecl R → Prop
  | plain _ get format | defaulted _ get _ format => codec.Conveys room format (get r)
  | nullable _ get format | optional _ get format =>
    ∀ value ∈ get r, format.encode value ≠ .null ∧ codec.Conveys room format value
  | flattened get format =>
    (∃ inner, format.encode (get r) = .object inner) ∧ codec.Conveys (room + 1) format (get r)

namespace FieldDecl

theorem written_of_conveyed (h : field.Conveyed codec room r) {p : String × Json}
    (hp : p ∈ field.written r) : codec.Legible p.2 ∧ p.2.fits room = true := by
  cases field with
  | plain | defaulted =>
    rw [List.mem_singleton.1 hp]
    exact ⟨h.legible, h.fits⟩
  | nullable name get format =>
    rw [List.mem_singleton.1 hp]
    cases hget : get r with
    | none => exact ⟨.null, by rw [fits.eq_def]⟩
    | some value => exact ⟨(h value hget).2.legible, (h value hget).2.fits⟩
  | optional name get format =>
    cases hget : get r with
    | none => simp [written, hget] at hp
    | some value =>
      simp only [written, hget, List.mem_singleton] at hp
      rw [hp]
      exact ⟨(h value hget).2.legible, (h value hget).2.fits⟩
  | flattened get format =>
    obtain ⟨⟨inner, hinner⟩, -, hlegible, hfits⟩ := h
    simp only [written, hinner] at hp
    rw [hinner] at hlegible hfits
    cases hlegible with
    | object legible => exact ⟨legible p hp, fitsFields_iff.1 hfits p hp⟩

/-- **What has been written is found.** -/
theorem finds_of_conveyed (hdistinct : Distinct fields r) (hfield : field ∈ fields)
    (h : field.Conveyed codec room r) :
    field.Finds (fields.flatMap (written r)) (ownNames fields) r := by
  cases field with
  | plain => exact ⟨_, valuesOf_written hdistinct hfield rfl, h.returns⟩
  | defaulted => exact .inr ⟨_, valuesOf_written hdistinct hfield rfl, h.returns⟩
  | nullable name get format =>
    have hvalues := valuesOf_written hdistinct hfield rfl
    cases hget : get r with
    | none =>
      simp only [written, hget] at hvalues
      exact .inl ⟨.inr hvalues, hget⟩
    | some value =>
      simp only [written, hget] at hvalues
      exact .inr ⟨_, value, hvalues, (h value hget).1, (h value hget).2.returns, hget⟩
  | optional name get format =>
    have hvalues := valuesOf_written hdistinct hfield rfl
    cases hget : get r with
    | none =>
      simp only [written, hget] at hvalues
      exact .inl ⟨.inl hvalues, hget⟩
    | some value =>
      simp only [written, hget] at hvalues
      exact .inr ⟨_, value, hvalues, (h value hget).1, (h value hget).2.returns, hget⟩
  | flattened get format =>
    obtain ⟨⟨inner, hinner⟩, hreturns, -, -⟩ := h
    have hmem : flattened get format ∈ fields.filter fun field => field.name?.isNone :=
      List.mem_filter.2 ⟨hfield, rfl⟩
    -- the flattened record is the only one, so all of the rest is its own
    have halone : fields.filter (fun field => field.name?.isNone) = [flattened get format] := by
      obtain ⟨other, hother⟩ := List.length_eq_one_iff.1
        (Nat.le_antisymm hdistinct.alone (List.length_pos_of_mem hmem))
      rw [hother] at hmem ⊢
      rw [List.mem_singleton.1 hmem]
    have hrest : .object ((fields.flatMap (written r)).filter
        fun field => !(ownNames fields).contains field.1) = format.encode (get r) := by
      rw [filter_written hdistinct, halone, List.flatMap_cons, List.flatMap_nil, List.append_nil,
        written, hinner]
    rw [Finds, hrest]
    exact hreturns

end FieldDecl

/-- **A record gets through if its fields do**, and can be told apart. -/
theorem Codec.conveys_record {format : Format R} (hencode : format.EncodesAs fields)
    (hdecode : format.DecodesAs fields) (hdistinct : FieldDecl.Distinct fields r)
    (hroom : room < nestingLimit) (h : ∀ field ∈ fields, field.Conveyed codec room r) :
    codec.Conveys (room + 1) format r := by
  have hwritten : ∀ p ∈ fields.flatMap (FieldDecl.written r),
      codec.Legible p.2 ∧ p.2.fits room = true := by
    intro p hp
    obtain ⟨field, hfield, hp⟩ := List.mem_flatMap.1 hp
    exact FieldDecl.written_of_conveyed (h field hfield) hp
  have hlegible : codec.Legible (format.encode r) := by
    rw [hencode]
    exact .object fun p hp => (hwritten p hp).1
  have hfits : (format.encode r).fits (room + 1) = true := by
    rw [hencode]
    exact fitsFields_iff.2 fun p hp => (hwritten p hp).2
  refine ⟨?_, hlegible, hfits⟩
  have hdeep := hlegible.fits_mono hroom hfits
  rw [hencode] at hdeep
  rw [Format.Returns, hencode]
  exact hdecode _ r hdeep fun field hfield =>
    FieldDecl.finds_of_conveyed hdistinct hfield (h field hfield)

/-! ## Values -/

namespace Codec

theorem conveys_below {bound : Nat} (hbound : bound ≤ wordLimit) (h : n < bound) :
    codec.Conveys room (.below bound) n where
  returns := if_pos h
  legible := by
    refine .integer ⟨by omega, ?_⟩
    rw [wordLimit] at hbound ⊢
    omega
  fits := by rw [Format.below, fits.eq_def]

theorem conveys_counter (n : UInt32) : codec.Conveys room .counter n := by
  have h : codec.Conveys room .word32 n.toNat := conveys_below (by decide) n.toNat_lt_size
  refine ⟨?_, h.legible, h.fits⟩
  show (Format.word32.decode? (Format.word32.encode n.toNat)).map UInt32.ofNat = some n
  rw [h.returns, Option.map_some, UInt32.ofNat_toNat]

theorem conveys_text (s : String) : codec.Conveys room .text s :=
  ⟨rfl, .string s, by rw [Format.text, fits.eq_def]⟩

theorem text_ne_null (s : String) : Format.text.encode s ≠ .null := by
  simp [Format.text]

theorem conveys_bool (b : Bool) : codec.Conveys room .bool b :=
  ⟨rfl, .bool b, by rw [Format.bool, fits.eq_def]⟩

theorem conveys_list {as : List α} (h : ∀ a ∈ as, codec.Conveys room format a) :
    codec.Conveys (room + 1) (.list format) as where
  returns := Format.mapM_map_eq_some fun a ha => (h a ha).returns
  legible := by
    refine .array fun item hitem => ?_
    obtain ⟨a, ha, rfl⟩ := List.mem_map.1 hitem
    exact (h a ha).legible
  fits := by
    refine fitsItems_iff.2 fun item hitem => ?_
    obtain ⟨a, ha, rfl⟩ := List.mem_map.1 hitem
    exact (h a ha).fits

theorem conveys_signed64 (i : Int64) : codec.Conveys room .signed64 i := by
  have hlow := i.le_toInt
  have hhigh := i.toInt_lt
  refine ⟨?_, .integer ⟨by omega, ?_⟩, by rw [Format.signed64, fits.eq_def]⟩
  · show (if Number.fits i.toInt = true then some (Int64.ofInt i.toInt) else none) = some i
    rw [if_pos, Int64.ofInt_toInt]
    simp only [Number.fits, Bool.and_eq_true, decide_eq_true_eq]
    omega
  · rw [wordLimit]
    omega

/-! ## Records -/

/-- The names of a span are not among those of a diagnostic. -/
theorem distinct_diagnostic (hspan : codec.span.EncodesAs Span.fields) (d : Diagnostic) :
    FieldDecl.Distinct (Diagnostic.fields codec.kind codec.category codec.span) d where
  own := by
    show Diagnostic.ownNames.Nodup
    decide
  others := by
    show ∀ p ∈ (FieldDecl.flattened _ codec.span).written d ++ [], p.1 ∉ Diagnostic.ownNames
    rw [FieldDecl.written, hspan]
    show ∀ p ∈ Span.fields.flatMap (FieldDecl.written d.span) ++ [], p.1 ∉ Diagnostic.ownNames
    simp [Span.fields, FieldDecl.written, Diagnostic.ownNames]
  alone := Nat.le_refl _

section

variable (hencode : codec.EncodesAsDeclared) (hdecode : codec.DecodesAsDeclared)

include hencode hdecode

theorem conveys_kind (k : FaultKind) : codec.Conveys room codec.kind k := by
  constructor
  · rw [Format.Returns, hencode.kind, hdecode.kind, FaultKind.ofName?_name]
  · rw [hencode.kind]
    exact .string _
  · rw [hencode.kind, fits.eq_def]

theorem conveys_category (c : FaultCategory) : codec.Conveys room codec.category c := by
  constructor
  · rw [Format.Returns, hencode.category, hdecode.category, FaultCategory.ofName?_name]
  · rw [hencode.category]
    exact .string _
  · rw [hencode.category, fits.eq_def]

/-- A whole number is taken as one, since it fits. A double is not, since it
is not given as a whole number. -/
theorem conveys_number {v : Number} (h : v.Fits codec) :
    codec.number.encode v ≠ .null ∧ codec.Conveys room codec.number v := by
  cases v with
  | integer i =>
    have hi : codec.Conveys room .signed64 i := conveys_signed64 i
    have hwritten : codec.number.encode (.integer i) = Format.signed64.encode i :=
      hencode.number_integer i
    refine ⟨by simp [hwritten, Format.signed64], ?_, hwritten ▸ hi.legible, hwritten ▸ hi.fits⟩
    rw [Format.Returns, hwritten, hdecode.number]
    simp only [Number.variants, List.findSome?_cons]
    rw [hi.returns]
    rfl
  | real x =>
    have hwritten := hencode.number_real h.finite
    refine ⟨by simp [hwritten], ?_, hwritten ▸ .real h, hwritten ▸ by rw [fits.eq_def]⟩
    rw [Format.Returns, hwritten, hdecode.number]
    rfl

theorem conveys_span (hroom : room < nestingLimit) (s : Span) :
    codec.Conveys (room + 1) codec.span s := by
  refine conveys_record hencode.span hdecode.span (.of_named (by decide) rfl) hroom ?_
  simp only [Span.fields, List.forall_mem_cons]
  exact ⟨conveys_counter _, conveys_counter _, conveys_counter _, conveys_counter _, by simp⟩

theorem conveys_limits (hroom : room < nestingLimit) {l : Limits} (h : l.Fits) :
    codec.Conveys (room + 1) codec.limits l := by
  refine conveys_record hencode.limits hdecode.limits (.of_named (by decide) rfl) hroom ?_
  simp only [Limits.fields, List.forall_mem_cons]
  refine ⟨conveys_below (by decide) h.maxDepth, conveys_below (by decide) h.maxTokens,
    fun limit hlimit => ⟨by simp [Format.word64, Format.below], ?_⟩, by simp⟩
  exact conveys_below (by decide) (h.stepLimit limit hlimit)

theorem conveys_diagnostic (hroom : room < nestingLimit) {d : Diagnostic} (h : d.Fits) :
    codec.Conveys (room + 1) codec.diagnostic d := by
  refine conveys_record hencode.diagnostic hdecode.diagnostic
    (distinct_diagnostic hencode.span d) hroom ?_
  simp only [Diagnostic.fields, List.forall_mem_cons]
  exact ⟨conveys_text _, conveys_kind hencode hdecode _, conveys_below (by decide) h,
    conveys_category hencode hdecode _, conveys_text _,
    ⟨⟨_, hencode.span d.span⟩, conveys_span hencode hdecode hroom _⟩, conveys_text _,
    fun _ _ => ⟨text_ne_null _, conveys_text _⟩, by simp⟩

theorem conveys_log (hroom : room + 2 < nestingLimit) {log : DiagnosticLog} (h : log.Fits) :
    codec.Conveys (room + 3) codec.log log := by
  have hown : ["errors", "total_errors"].Nodup := by decide
  refine conveys_record hencode.log hdecode.log (.of_named hown rfl) hroom ?_
  simp only [DiagnosticLog.fields, List.forall_mem_cons]
  refine ⟨conveys_list fun d hd => ?_, conveys_below (by decide) h.total, by simp⟩
  exact conveys_diagnostic hencode hdecode (by omega) (h.stored d hd)

theorem conveys_report (hroom : room + 3 < nestingLimit) {r : Report} (h : r.Fits codec) :
    codec.Conveys (room + 4) codec.report r := by
  have hown : ["success", "value", "display", "errors"].Nodup := by decide
  refine conveys_record hencode.report hdecode.report (.of_named hown rfl) hroom ?_
  simp only [Report.fields, List.forall_mem_cons]
  exact ⟨conveys_bool _, fun v hv => conveys_number hencode hdecode (h.value v hv),
    fun _ _ => ⟨text_ne_null _, conveys_text _⟩,
    conveys_log hencode hdecode (by omega) h.errors, by simp⟩

end

/-! ## From records to texts -/

/-- The object of a diagnostic names nothing twice, and what is none of its
own fields is the object of its span. -/
theorem exists_fields (hencode : codec.EncodesAsDeclared) (d : Diagnostic) :
    ∃ given inner, codec.diagnostic.encode d = .object given ∧
      codec.span.encode d.span = .object inner ∧ (given.map Prod.fst).Nodup ∧
      given.filter (fun field => !Diagnostic.ownNames.contains field.1) = inner := by
  refine ⟨_, _, hencode.encode_diagnostic d, hencode.encode_span d.span, ?_, ?_⟩
  · cases d.suggestion? <;> simp
  · cases d.suggestion? <;> rfl

theorem ofText?_text_of_conveys (hread : codec.ReadsText) (hroom : room ≤ nestingLimit)
    (h : codec.Conveys room format a) : codec.ofText? format (codec.text format a) = some a := by
  rw [ofText?, text, hread _ h.legible (h.legible.fits_mono hroom h.fits), Option.bind_some,
    h.returns]

/-- **What is read of the text of a record is the record**, whatever codec
goes by what the records declare. The span of a diagnostic keeps its own
names among the other fields. -/
theorem ofText?_text (hencode : codec.EncodesAsDeclared) (hdecode : codec.DecodesAsDeclared)
    (hread : codec.ReadsText) :
    (∀ s, codec.ofText? codec.span (codec.text codec.span s) = some s) ∧
    (∀ l : Limits, l.Fits → codec.ofText? codec.limits (codec.text codec.limits l) = some l) ∧
    (∀ d : Diagnostic, d.Fits →
      codec.ofText? codec.diagnostic (codec.text codec.diagnostic d) = some d) ∧
    (∀ log : DiagnosticLog, log.Fits →
      codec.ofText? codec.log (codec.text codec.log log) = some log) ∧
    (∀ v : Number, v.Fits codec →
      codec.ofText? codec.number (codec.text codec.number v) = some v) ∧
    (∀ r : Report, r.Fits codec →
      codec.ofText? codec.report (codec.text codec.report r) = some r) ∧
    ∀ d, ∃ given inner, codec.diagnostic.encode d = .object given ∧
      codec.span.encode d.span = .object inner ∧ (given.map Prod.fst).Nodup ∧
      given.filter (fun field => !Diagnostic.ownNames.contains field.1) = inner := by
  refine ⟨fun s => ?_, fun l h => ?_, fun d h => ?_, fun log h => ?_, fun v h => ?_,
    fun r h => ?_, exists_fields hencode⟩
  · have hs : codec.Conveys 1 codec.span s := conveys_span hencode hdecode (by decide) s
    exact ofText?_text_of_conveys hread (by decide) hs
  · have hl : codec.Conveys 1 codec.limits l := conveys_limits hencode hdecode (by decide) h
    exact ofText?_text_of_conveys hread (by decide) hl
  · have hd : codec.Conveys 1 codec.diagnostic d :=
      conveys_diagnostic hencode hdecode (by decide) h
    exact ofText?_text_of_conveys hread (by decide) hd
  · have hlog : codec.Conveys 3 codec.log log := conveys_log hencode hdecode (by decide) h
    exact ofText?_text_of_conveys hread (by decide) hlog
  · exact ofText?_text_of_conveys hread (Nat.zero_le _) (conveys_number hencode hdecode h).2
  · have hr : codec.Conveys 4 codec.report r := conveys_report hencode hdecode (by decide) h
    exact ofText?_text_of_conveys hread (by decide) hr

/-- A double that is whole but no whole number that can be kept, a negative
zero, the widest fields, and a code and a category that are another kind's. -/
theorem ofText?_text_widest :
    let big := Number.real (.ofInt 9223372036854775808)
    let l : Limits := ⟨4294967295, 18446744073709551615, none⟩
    let s : Span := ⟨⟨4294967295, 0⟩, ⟨1, 4294967295⟩⟩
    let d : Diagnostic := ⟨"\"line\": 1\n", .divisionByZero, ⟨65535⟩, .limit, "\\", s, "\t", none⟩
    let log : DiagnosticLog := ⟨[d, { d with suggestion? := some "" }], 18446744073709551615⟩
    let r : Report := ⟨true, some (.real (.zero true)), none, log⟩
    (l.Fits ∧ d.Fits ∧ log.Fits ∧ big.Fits standard ∧ r.Fits standard) ∧
    standard.ofText? standard.span (standard.text standard.span s) = some s ∧
    standard.ofText? standard.limits (standard.text standard.limits l) = some l ∧
    standard.ofText? standard.diagnostic (standard.text standard.diagnostic d) = some d ∧
    standard.ofText? standard.log (standard.text standard.log log) = some log ∧
    standard.ofText? standard.number (standard.text standard.number big) = some big ∧
    standard.ofText? standard.report (standard.text standard.report r) = some r := by
  intro big l s d log r
  have hl : l.Fits := ⟨by decide, by decide, fun limit h => absurd h (Option.not_mem_none limit)⟩
  have hd : d.Fits := by
    show 65535 < 65536
    decide
  have hlog : log.Fits := by
    refine ⟨?_, by decide⟩
    simp only [log, List.forall_mem_cons]
    exact ⟨hd, hd, by simp⟩
  have hbig : big.Fits standard := survives_iff.2 ⟨by decide +kernel, by decide +kernel⟩
  have hr : r.Fits standard := by
    refine ⟨?_, hlog⟩
    rintro value ⟨⟩
    exact survives_iff.2 ⟨by decide, by decide +kernel⟩
  obtain ⟨hspan, hlimits, hdiagnostic, hstored, hnumber, hreport, -⟩ :=
    ofText?_text standard_encodesAsDeclared standard_decodesAsDeclared standard_readsText
  exact ⟨⟨hl, hd, hlog, hbig, hr⟩, hspan s, hlimits l hl, hdiagnostic d hd, hstored log hlog,
    hnumber big hbig, hreport r hr⟩

end Codec

end Json

end Abacus
