import Abacus.Proofs.ExactArithmetic
import Abacus.Proofs.Parts
import Abacus.Proofs.StandardCodec
import Abacus.Proofs.StepLimits

/-!
# Finiteness

Nothing that is not finite comes out of an evaluation. A value at the root
of a tree means a finite value at every node below it, since each node uses
all of its operands: so no literal was out of range, no result was, and no
divisor was a zero. A result is therefore narrowed from a finite double, and
what stands for it in the JSON value of a report is a number, where a double
that is not finite would be given as `null`.
-/

namespace Abacus

/-! ## Doubles and operators -/

namespace Double

variable {x : Double}

theorem isZero_zero (negative : Bool) : (zero negative).isZero = true := rfl

/-- A finite double has an exact value. -/
theorem exists_toRat?_of_isFinite (h : x.isFinite = true) : ∃ q, x.toRat? = some q := by
  cases x with
  | finite a c => exact ⟨_, toRat?_finite a c⟩
  | _ => cases h

end Double

/-- Nothing is divided by a zero. -/
theorem BinaryOp.ne_zero_of_apply_div {x y z : Double} (h : BinaryOp.div.apply x y = .ok z)
    (negative : Bool) : y ≠ .zero negative := by
  rintro rfl
  rw [apply_eq, if_pos ⟨rfl, Double.isZero_zero negative⟩] at h
  cases h

/-! ## Trees -/

namespace Expr

variable {n e : Expr} {x : Double}

/-- **A value at the root is one at every node**: a node without one has no
value to pass on. -/
theorem Part.exists_value (h : Part n e) (hvalue : value e = .ok x) :
    ∃ y, value n = .ok y := by
  induction h generalizing x with
  | self => exact ⟨x, hvalue⟩
  | operand s _ ih =>
    obtain ⟨y, hy, -⟩ := value_negate_eq_ok.1 hvalue
    exact ih hy
  | inner s _ ih => exact ih hvalue
  | left s op r _ ih =>
    obtain ⟨y, _, hy, -, -⟩ := value_binary_eq_ok.1 hvalue
    exact ih hy
  | right s op l _ ih =>
    obtain ⟨_, y, -, hy, -⟩ := value_binary_eq_ok.1 hvalue
    exact ih hy

end Expr

namespace Meter

open Abacus.Expr (Part value)

variable {m : Meter} {n e : Expr} {x : Double}

/-- Everything in a tree is finite: its literals, and what each of its nodes
comes to on a meter. And no divisor is a zero. -/
structure AllFinite (m : Meter) (e : Expr) : Prop where
  literal : ∀ span x, Part (.literal span x) e → x.isFinite = true
  part : ∀ n, Part n e → ∃ x, (m.evaluate n).1 = .ok x ∧ x.isFinite = true
  divisor : ∀ span left right, Part (.binary span .div left right) e →
    ∃ y, (m.evaluate right).1 = .ok y ∧ ∀ negative, y ≠ .zero negative

/-- What is evaluated on a meter has its parts evaluated on it, each to its
value. -/
theorem exists_evaluate_part (h : (m.evaluate e).1 = .ok x) (hpart : Part n e) :
    ∃ y, value n = .ok y ∧ (m.evaluate n).1 = .ok y := by
  obtain ⟨hvalue, hsteps⟩ := Expr.run_eval_eq_ok_iff.1 h
  obtain ⟨y, hy⟩ := hpart.exists_value hvalue
  -- the counts that a part comes to are the first of those of the whole
  exact ⟨y, hy, Expr.run_eval_eq_ok_iff.2 ⟨hy, fun k hk => hsteps k (hk.trans_le hpart.size_le)⟩⟩

/-- **A tree with a value has nothing in it that is not finite.** -/
theorem evaluate_allFinite (h : (m.evaluate e).1 = .ok x) : m.AllFinite e := by
  constructor
  · intro span y hpart
    obtain ⟨z, hvalue, -⟩ := exists_evaluate_part h hpart
    exact (Expr.value_literal_eq_ok.1 hvalue).1
  · intro n hpart
    obtain ⟨y, hvalue, heval⟩ := exists_evaluate_part h hpart
    exact ⟨y, heval, Expr.isFinite_of_value hvalue⟩
  · intro span left right hpart
    obtain ⟨z, hvalue, -⟩ := exists_evaluate_part h hpart
    obtain ⟨a, b, -, hb, happly⟩ := Expr.value_binary_eq_ok.1 hvalue
    obtain ⟨y, hy, heval⟩ := exists_evaluate_part h
      ((Part.self.right span .div left).trans hpart)
    obtain rfl : b = y := Except.ok.inj (hb.symm.trans hy)
    exact ⟨b, heval, BinaryOp.ne_zero_of_apply_div happly⟩

end Meter

/-! ## Results -/

namespace Number

variable {v : Number} {x : Double}

/-- What a result may be: a whole number that is exactly a double, or a
finite double that is no whole number of 64 bits with a sign. -/
inductive Narrowed : Number → Prop
  | integer {i : Int64} (x : Double) (exact : x.toRat? = some (i.toInt : ℚ)) :
      Narrowed (.integer i)
  | real {x : Double} (finite : x.isFinite = true)
      (other : ∀ n : ℤ, x.toRat? = some (n : ℚ) → ¬ (-2 ^ 63 ≤ n ∧ n < 2 ^ 63)) :
      Narrowed (.real x)

/-- **A finite double is narrowed.** -/
theorem narrowed_ofDouble (h : x.isFinite = true) : (ofDouble x).Narrowed := by
  obtain ⟨q, hq⟩ := Double.exists_toRat?_of_isFinite h
  have hexact := isExactly_ofDouble hq
  by_cases hwhole : ∃ n : ℤ, q = n ∧ -2 ^ 63 ≤ n ∧ n < 2 ^ 63
  · obtain ⟨n, hn, hlow, hhigh⟩ := hwhole
    obtain ⟨i, hi, hin⟩ := hexact.whole n hn hlow hhigh
    rw [hi]
    exact .integer x (by rw [hq, hn, hin])
  · have hnone : ∀ n : ℤ, q = n → ¬ (-2 ^ 63 ≤ n ∧ n < 2 ^ 63) :=
      fun n hn hfits => hwhole ⟨n, hn, hfits⟩
    obtain ⟨y, hy, hyq⟩ := hexact.other hnone
    rw [hy]
    exact .real (Double.isFinite_of_toRat? hyq)
      fun n hn => hnone n (Option.some.inj (hyq.symm.trans hn))

/-- Zero is a whole number, so neither double zero is left. -/
theorem Narrowed.ne_zero (h : v.Narrowed) (negative : Bool) : v ≠ .real (.zero negative) := by
  rintro rfl
  cases h with
  | real _ other =>
    refine other 0 ?_ (by decide)
    rw [Double.toRat?_zero, Int.cast_zero]

end Number

/-! ## Reports -/

/-- A JSON value that is a number: whole, or a finite double. -/
inductive Json.IsNumber : Json → Prop
  | integer (value : Int) : IsNumber (.integer value)
  | real {value : Double} (finite : value.isFinite = true) : IsNumber (.real value)

theorem Json.IsNumber.ne_null {j : Json} (h : j.IsNumber) : j ≠ .null := by
  rintro rfl
  cases h

variable {codec : Json.Codec} {v : Number}

/-- **A result is given as a number.** -/
theorem Number.Narrowed.isNumber_encode (hencode : codec.EncodesAsDeclared) (h : v.Narrowed) :
    (codec.number.encode v).IsNumber := by
  cases h with
  | @integer i =>
    rw [hencode.number_integer]
    exact .integer i.toInt
  | real finite =>
    rw [hencode.number_real finite]
    exact .real finite

/-- What a report has under the name of its value. -/
theorem Report.exists_valuesOf_value (hencode : codec.EncodesAsDeclared) {r : Report}
    (hvalue : r.value? = some v) :
    ∃ given, codec.report.encode r = .object given ∧
      Json.valuesOf given "value" = [codec.number.encode v] := by
  refine ⟨_, hencode.encode_report r, ?_⟩
  simp [Json.valuesOf, hvalue]

/-! ## Calculations -/

theorem narrowed_of_evaluate {text : String} {limits : Limits} {v : Number}
    (h : evaluate text limits = .ok v) : v.Narrowed := by
  obtain ⟨-, e, x, -, hvalue, -, rfl⟩ := calculate_eq_ok_iff.1 (evaluate_eq_ok_iff.1 h)
  exact Number.narrowed_ofDouble (Expr.isFinite_of_value hvalue)

/-- **Nothing that is not finite comes out.** When a tree is evaluated to a
value on a meter, whatever was counted on it before, the value is finite,
and so is every literal and the value of every node; nothing was divided by a
zero of either sign. So the result of a text is a whole number that is
exactly a double, or a finite double that is no whole number of 64 bits
and no zero. The JSON value of a report that succeeds has one value in it, and
that is the number for the result and not `null`. -/
theorem finite_of_evaluate {codec : Json.Codec} (hencode : codec.EncodesAsDeclared) :
    (∀ (m : Meter) (e : Expr) (x : Double), (m.evaluate e).1 = .ok x →
      x.isFinite = true ∧ m.AllFinite e) ∧
    ∀ (text : String) (limits : Limits),
      (∀ v, evaluate text limits = .ok v →
        v.Narrowed ∧ ∀ negative, v ≠ .real (.zero negative)) ∧
      ((report text limits).success = true →
        ∃ v given number, evaluate text limits = .ok v ∧
          (report text limits).value? = some v ∧
          codec.report.encode (report text limits) = .object given ∧
          Json.valuesOf given "value" = [number] ∧ number = codec.number.encode v ∧
          number.IsNumber ∧ number ≠ .null) := by
  refine ⟨fun m e x h => ?_, fun text limits => ⟨fun v h => ?_, fun hsuccess => ?_⟩⟩
  · exact ⟨Expr.isFinite_of_value (Meter.evaluate_eq_ok h).1, Meter.evaluate_allFinite h⟩
  · have hnarrowed := narrowed_of_evaluate h
    exact ⟨hnarrowed, hnarrowed.ne_zero⟩
  · obtain ⟨v, h⟩ := report_success_iff.1 hsuccess
    have hvalue : (report text limits).value? = some v := by
      rw [report_of_ok (evaluate_eq_ok_iff.1 h)]
    obtain ⟨given, hgiven, hvalues⟩ := Report.exists_valuesOf_value hencode hvalue
    have hnumber := (narrowed_of_evaluate h).isNumber_encode hencode
    exact ⟨v, given, _, h, hvalue, hgiven, hvalues, rfl, hnumber, hnumber.ne_null⟩

/-- `-7/2` has four nodes, and `-3.5` is no whole number. The meter has
counted as far as it can, so that the next step is the first again. -/
theorem finite_of_evaluate_quotient :
    let seven := Expr.negate ⟨⟨1, 1⟩, ⟨1, 2⟩⟩ (.literal (.point ⟨1, 2⟩) (.ofInt 7))
    let two := Expr.literal (.point ⟨1, 4⟩) (.ofInt 2)
    let e := Expr.binary ⟨⟨1, 1⟩, ⟨1, 4⟩⟩ .div seven two
    let x := (Double.ofInt (-7)).div (.ofInt 2)
    let m : Meter := ⟨18446744073709551615, 18446744073709551615⟩
    (m.evaluate e).1 = .ok x ∧ x.isFinite = true ∧
      (∃ y, (m.evaluate two).1 = .ok y ∧ ∀ negative, y ≠ .zero negative) ∧
      evaluate "-7/2" .standard = .ok (.real x) ∧ (Number.real x).Narrowed ∧
      ∃ given, Json.Codec.standard.report.encode (report "-7/2" .standard) = .object given ∧
        Json.valuesOf given "value" = [.real x] := by
  intro seven two e x m
  obtain ⟨htree, htext⟩ := finite_of_evaluate Json.Codec.standard_encodesAsDeclared
  obtain ⟨hnumber, hreport⟩ := htext "-7/2" .standard
  have heval : (m.evaluate e).1 = .ok x := by decide +kernel
  have hresult : evaluate "-7/2" .standard = .ok (.real x) := by decide +kernel
  obtain ⟨hfinite, hall⟩ := htree _ _ _ heval
  obtain ⟨v, given, number, hv, -, hgiven, hvalues, hencoded, -, -⟩ :=
    hreport (report_success_iff.2 ⟨_, hresult⟩)
  obtain rfl : .real x = v := Except.ok.inj (hresult.symm.trans hv)
  rw [hencoded, Json.Codec.standard_encodesAsDeclared.number_real hfinite] at hvalues
  exact ⟨heval, hfinite, hall.divisor _ _ _ .self, hresult, (hnumber _ hresult).1, given, hgiven,
    hvalues⟩

end Abacus
