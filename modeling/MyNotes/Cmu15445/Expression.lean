/-
Expressions of project 3 over a storage engine that is a parameter.

A tuple is read with a schema: what another schema finds in it is up to the engine.
A comparison of a `NULL` is `NULL`, and what `GetAs<bool>` makes of that is up to the
engine as well.
-/

import Mathlib.Data.Int.Notation
import Mathlib.Data.Nat.Notation

namespace MyNotes.Cmu15445

inductive CmpBool where
 | cmpFalse
 | cmpTrue
 | cmpNull
 deriving DecidableEq

def CmpBool.and : CmpBool → CmpBool → CmpBool
 | .cmpFalse, _ => .cmpFalse
 | _, .cmpFalse => .cmpFalse
 | .cmpTrue, .cmpTrue => .cmpTrue
 | _, _ => .cmpNull

inductive ComparisonType where
 | equal
 | notEqual
 | lessThan
 | lessThanOrEqual
 | greaterThan
 | greaterThanOrEqual
 deriving DecidableEq

inductive LogicType where
 | and
 | or
 deriving DecidableEq

inductive Expression (Value : Type) where
 | columnValue (tupleIdx colIdx : ℕ)
 | constantValue (val : Value)
 | comparison (compType : ComparisonType) (left right : Expression Value)
 | logic (logicType : LogicType) (left right : Expression Value)

structure Engine (Value Tuple Schema : Type) where
 compareEquals : Value → Value → CmpBool
 comparison : ComparisonType → Value → Value → Value
 logic : LogicType → Value → Value → Value
 getBooleanValue : CmpBool → Value
 /-- `GetAs<bool>`. -/
 getAsBool : Value → Bool
 getValue : Tuple → Schema → ℕ → Value
 getColumnCount : Schema → ℕ
 /-- `GetNullValueByType` for the type of a column. -/
 getNullValue : Schema → ℕ → Value
 makeTuple : List Value → Schema → Tuple
 emptyTuple : Tuple

structure Engine.Lawful {Value Tuple Schema : Type} (engine : Engine Value Tuple Schema) :
 Prop where
 getAsBool_true : engine.getAsBool (engine.getBooleanValue .cmpTrue) = true
 getAsBool_false : engine.getAsBool (engine.getBooleanValue .cmpFalse) = false
 compareEquals_comm : ∀ left right, engine.compareEquals left right =
  engine.compareEquals right left
 comparison_equal : ∀ left right, engine.comparison .equal left right =
  engine.getBooleanValue (engine.compareEquals left right)
 logic_and : ∀ left right,
  engine.logic .and (engine.getBooleanValue left) (engine.getBooleanValue right) =
   engine.getBooleanValue (left.and right)

namespace Expression

variable {Value Tuple Schema : Type} (engine : Engine Value Tuple Schema)

/-- The value of an expression whose columns are read by `column`. -/
def valueWith (column : ℕ → ℕ → Value) : Expression Value → Value
 | columnValue tupleIdx colIdx => column tupleIdx colIdx
 | constantValue val => val
 | comparison compType left right =>
  engine.comparison compType (valueWith column left) (valueWith column right)
 | logic logicType left right =>
  engine.logic logicType (valueWith column left) (valueWith column right)

def evaluate (tuple : Tuple) (schema : Schema) : Expression Value → Value :=
 valueWith engine fun _ colIdx => engine.getValue tuple schema colIdx

def evaluateJoin (left : Tuple) (leftSchema : Schema) (right : Tuple) (rightSchema : Schema) :
 Expression Value → Value :=
 valueWith engine fun tupleIdx colIdx =>
  if tupleIdx = 0 then engine.getValue left leftSchema colIdx
  else engine.getValue right rightSchema colIdx

end Expression

/-! ### An engine of integer columns -/

inductive Datum where
 | integer (val : Option ℤ)
 | boolean (result : CmpBool)
 deriving DecidableEq

namespace Datum

def ofBool (holds : Bool) : CmpBool := if holds then .cmpTrue else .cmpFalse

def compare : ComparisonType → ℤ → ℤ → Bool
 | .equal, left, right => left = right
 | .notEqual, left, right => left ≠ right
 | .lessThan, left, right => left < right
 | .lessThanOrEqual, left, right => left ≤ right
 | .greaterThan, left, right => right < left
 | .greaterThanOrEqual, left, right => right ≤ left

def compareBy (compType : ComparisonType) : Datum → Datum → CmpBool
 | integer (some left), integer (some right) => ofBool (compare compType left right)
 | _, _ => .cmpNull

def getBoolAsCmpBool : Datum → CmpBool
 | boolean result => result
 | integer (some val) => ofBool (val ≠ 0)
 | integer none => .cmpNull

def not : CmpBool → CmpBool
 | .cmpFalse => .cmpTrue
 | .cmpTrue => .cmpFalse
 | .cmpNull => .cmpNull

def logic : LogicType → CmpBool → CmpBool → CmpBool
 | .and, left, right => left.and right
 | .or, left, right => not ((not left).and (not right))

end Datum

/-- Tuples are lists of words, and a schema gives the word of each column.  The byte of a
`NULL` boolean is not zero. -/
def wordEngine : Engine Datum (List Datum) (List ℕ) where
 compareEquals := Datum.compareBy .equal
 comparison compType left right := .boolean (Datum.compareBy compType left right)
 logic logicType left right :=
  .boolean (Datum.logic logicType left.getBoolAsCmpBool right.getBoolAsCmpBool)
 getBooleanValue := .boolean
 getAsBool val := val.getBoolAsCmpBool ≠ .cmpFalse
 getValue tuple schema colIdx := tuple.getD (schema.getD colIdx 0) (.integer none)
 getColumnCount := List.length
 getNullValue _ _ := .integer none
 makeTuple values schema := (List.range (schema.foldr max 0 + 1)).map fun word =>
  values.getD (schema.idxOf word) (.integer none)
 emptyTuple := []

theorem wordEngine_lawful : wordEngine.Lawful where
 getAsBool_true := rfl
 getAsBool_false := rfl
 compareEquals_comm left right := by
  cases left with
  | boolean result =>
   cases right with
   | boolean other => rfl
   | integer second => cases second <;> rfl
  | integer first =>
   cases right with
   | boolean result => cases first <;> rfl
   | integer second =>
    cases first with
    | none => cases second <;> rfl
    | some one =>
     cases second with
     | none => rfl
     | some other =>
      change Datum.ofBool (decide (one = other)) = Datum.ofBool (decide (other = one))
      rw [decide_eq_decide.mpr eq_comm]
 comparison_equal _ _ := rfl
 logic_and _ _ := rfl

end MyNotes.Cmu15445
