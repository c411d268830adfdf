import Abacus.Double.Basic

/-!
# Json — Basic

JSON values. Whole numbers are kept apart from the others, and the fields
of an object keep their order and may repeat.
-/

namespace Abacus

/-- A JSON value. -/
inductive Json where
  | null
  | bool (value : Bool)
  /-- A number written without a fraction and without an exponent. -/
  | integer (value : Int)
  /-- Any other number. -/
  | real (value : Double)
  | string (value : String)
  | array (items : List Json)
  | object (fields : List (String × Json))
  /-- What is well formed and still has no value: a number that is too
  large, a string with half of a surrogate pair, an object with such a
  string for a name. It can be passed over but not used. -/
  | unusable

namespace Json

mutual

/-- Whether every part of a value can be used and arrays and objects nest at
most `room` deep in it. -/
def fits (room : Nat) : Json → Bool
  | unusable => false
  | array items =>
    match room with
    | 0 => false
    | room + 1 => fitsItems room items
  | object fields =>
    match room with
    | 0 => false
    | room + 1 => fitsFields room fields
  | _ => true

/-- `fits` for every item. -/
def fitsItems (room : Nat) : List Json → Bool
  | [] => true
  | item :: items => fits room item && fitsItems room items

/-- `fits` for the value of every field. -/
def fitsFields (room : Nat) : List (String × Json) → Bool
  | [] => true
  | (_, value) :: fields => fits room value && fitsFields room fields

end

variable {room : Nat}

theorem fitsItems_iff {items : List Json} :
    fitsItems room items = true ↔ ∀ item ∈ items, item.fits room = true := by
  induction items with
  | nil => simp [fitsItems]
  | cons item items ih => rw [fitsItems, Bool.and_eq_true, ih, List.forall_mem_cons]

theorem fitsFields_iff {fields : List (String × Json)} :
    fitsFields room fields = true ↔ ∀ field ∈ fields, field.2.fits room = true := by
  induction fields with
  | nil => simp [fitsFields]
  | cons field fields ih => rw [fitsFields, Bool.and_eq_true, ih, List.forall_mem_cons]

theorem fitsItems_of_fits {items : List Json} (h : (array items).fits room = true) :
    fitsItems (room - 1) items = true := by
  cases room with
  | zero => simp [fits] at h
  | succ room => exact h

theorem fitsFields_of_fits {fields : List (String × Json)} (h : (object fields).fits room = true) :
    fitsFields (room - 1) fields = true := by
  cases room with
  | zero => simp [fits] at h
  | succ room => exact h

end Json

end Abacus
