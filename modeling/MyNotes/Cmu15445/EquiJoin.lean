/-
The hash join and the nested loop join of the same key equalities.

The executors differ in two places.  The hash join reads a right key with the schema of
the left child, and the nested loop join takes what `GetAs<bool>` makes of `NULL` for
the result of its predicate.
-/

import Mathlib.Data.List.Perm.Basic
import MyNotes.Cmu15445.JoinExecutors

namespace MyNotes.Cmu15445

open Library.PullIterator List NestedLoopJoinExecutor CmpBool

variable {Value Tuple Schema : Type} {engine : Engine Value Tuple Schema}

/-! ### Conjunctions -/

namespace CmpBool

def all (results : List CmpBool) : CmpBool := results.foldr CmpBool.and .cmpTrue

theorem all_append (results others : List CmpBool) :
 all (results ++ others) = (all results).and (all others) := by
 induction results with
 | nil =>
  change all others = and .cmpTrue (all others)
  cases all others <;> rfl
 | cons first rest ih =>
  change first.and (all (rest ++ others)) = (first.and (all rest)).and (all others)
  rw [ih]
  cases first <;> cases all rest <;> cases all others <;> rfl

theorem all_singleton (result : CmpBool) : all [result] = result := by
 cases result <;> rfl

theorem all_eq_cmpFalse {results : List CmpBool} :
 all results = .cmpFalse ↔ .cmpFalse ∈ results := by
 induction results with
 | nil => simp [all]
 | cons first rest ih =>
  rw [mem_cons, ← ih]
  change first.and (all rest) = .cmpFalse ↔ _
  cases first <;> cases all rest <;> simp [and]

theorem all_eq_cmpNull {results : List CmpBool} :
 all results = .cmpNull ↔ .cmpFalse ∉ results ∧ .cmpNull ∈ results := by
 induction results with
 | nil => simp [all]
 | cons first rest ih =>
  have falses : all rest = .cmpFalse ↔ .cmpFalse ∈ rest := all_eq_cmpFalse
  change first.and (all rest) = .cmpNull ↔ _
  rw [mem_cons, mem_cons, ← falses]
  cases first <;> cases last : all rest <;> simp_all [and]

end CmpBool

/-- What a predicate with this result lets through. -/
def Engine.passes (engine : Engine Value Tuple Schema) (result : CmpBool) : Bool :=
 engine.getAsBool (engine.getBooleanValue result)

theorem Engine.Lawful.passes_iff (lawful : engine.Lawful) (result : CmpBool) :
 engine.passes result = true ↔
  result ≠ .cmpFalse ∧ (result = .cmpNull → engine.passes .cmpNull = true) := by
 unfold Engine.passes
 cases result with
 | cmpFalse => simp [lawful.getAsBool_false]
 | cmpTrue => simp [lawful.getAsBool_true]
 | cmpNull => simp

/-! ### Key equalities -/

abbrev Keys (Value : Type) := List (Expression Value × Expression Value)

namespace Keys

variable (engine) (join : Join Schema) (keys : Keys Value)

/-- The results of the comparisons when the right keys are read with a schema. -/
def results (schema : Schema) (left right : Tuple) : List CmpBool :=
 keys.map fun key => engine.compareEquals (key.1.evaluate engine left join.leftSchema)
  (key.2.evaluate engine right schema)

/-- All keys are equal under the schema of the left child exactly when, under that of the
right child, none differs and the nested loop join accepts the ones that are `NULL`. -/
def Agree (left right : Tuple) : Prop :=
 (∀ result ∈ keys.results engine join join.leftSchema left right, result = .cmpTrue) ↔
  .cmpFalse ∉ keys.results engine join join.rightSchema left right ∧
   (.cmpNull ∈ keys.results engine join join.rightSchema left right →
    engine.passes .cmpNull = true)

variable {engine join keys} {left right : Tuple}

theorem results_append (others : Keys Value) (schema : Schema) :
 Keys.results engine join (keys ++ others) schema left right =
  keys.results engine join schema left right ++ others.results engine join schema left right :=
 map_append

theorem hashJoin_test : HashJoinExecutor.test engine join (keys.map Prod.fst) (keys.map Prod.snd)
 left right = true ↔
  ∀ result ∈ keys.results engine join join.leftSchema left right, result = .cmpTrue := by
 unfold HashJoinExecutor.test HashJoinExecutor.makeLeftJoinKey HashJoinExecutor.makeRightJoinKey
  results
 induction keys with
 | nil => simp [hashJoinKeyEquals]
 | cons key rest ih =>
  simp only [map_cons, forall_mem_cons, ← ih, hashJoinKeyEquals]
  by_cases equal : engine.compareEquals (key.1.evaluate engine left join.leftSchema)
   (key.2.evaluate engine right join.leftSchema) = .cmpTrue
  · simp [equal]
  · simp [equal]

theorem nestedLoopJoin_test (lawful : engine.Lawful) {predicate : Expression Value}
 (value : predicate.evaluateJoin engine left join.leftSchema right join.rightSchema =
  engine.getBooleanValue (.all (keys.results engine join join.rightSchema left right))) :
 test engine join predicate left right = true ↔
  .cmpFalse ∉ keys.results engine join join.rightSchema left right ∧
   (.cmpNull ∈ keys.results engine join join.rightSchema left right →
    engine.passes .cmpNull = true) := by
 unfold test
 rw [value]
 refine (lawful.passes_iff _).trans ?_
 rw [Ne, all_eq_cmpFalse, all_eq_cmpNull]
 constructor
 · simp_all
 · simp_all

end Keys

namespace Expression

def columnKeys (columns : List (ℕ × ℕ)) : Keys Value :=
 columns.map fun pair => (.columnValue 0 pair.1, .columnValue 1 pair.2)

def equality (pair : ℕ × ℕ) : Expression Value :=
 .comparison .equal (.columnValue 0 pair.1) (.columnValue 1 pair.2)

/-- The conjunction of the equalities of pairs of columns. -/
def conjunction (engine : Engine Value Tuple Schema) : List (ℕ × ℕ) → Expression Value
 | [] => .constantValue (engine.getBooleanValue .cmpTrue)
 | [pair] => equality pair
 | pair :: other :: rest => .logic .and (equality pair) (conjunction engine (other :: rest))

theorem evaluateJoin_conjunction (lawful : engine.Lawful) (join : Join Schema)
 (columns : List (ℕ × ℕ)) (left right : Tuple) :
 (conjunction engine columns).evaluateJoin engine left join.leftSchema right join.rightSchema =
  engine.getBooleanValue
   (.all ((columnKeys columns).results engine join join.rightSchema left right)) := by
 have one : ∀ pair : ℕ × ℕ,
  (equality pair).evaluateJoin engine left join.leftSchema right join.rightSchema =
   engine.getBooleanValue (engine.compareEquals (engine.getValue left join.leftSchema pair.1)
    (engine.getValue right join.rightSchema pair.2)) :=
  fun pair => lawful.comparison_equal _ _
 induction columns with
 | nil => rfl
 | cons pair rest ih =>
  cases rest with
  | nil => exact (one pair).trans (congrArg _ (all_singleton _).symm)
  | cons other rest =>
   change engine.logic .and ((equality pair).evaluateJoin engine left join.leftSchema right
    join.rightSchema) ((conjunction engine (other :: rest)).evaluateJoin engine left
     join.leftSchema right join.rightSchema) = _
   rw [one, ih, lawful.logic_and]
   rfl

end Expression

/-! ### Agreement -/

/-- Both executors end, with the same rows up to their order. -/
def SameRows (engine : Engine Value Tuple Schema) (join : Join Schema)
 (leftKeys rightKeys : List (Expression Value)) (predicate : Expression Value)
 (lefts rights : List Tuple) : Prop :=
 ∃ hashed looped,
  Emits (HashJoinExecutor.next engine join leftKeys
   (HashJoinExecutor.init engine join rightKeys rights))
   (HashJoinExecutor.start engine lefts) hashed ∧
  Emits (next engine join predicate rights)
   (init engine lefts) looped ∧
  hashed.Perm looped

section Tests

variable {join : Join Schema} {leftKeys rightKeys : List (Expression Value)}
 {predicate : Expression Value}

theorem rows_eq_of_tests {lefts rights : List Tuple}
 (agree : ∀ left ∈ lefts, ∀ right ∈ rights,
  HashJoinExecutor.test engine join leftKeys rightKeys left right =
   test engine join predicate left right) :
 HashJoinExecutor.rows engine join leftKeys rightKeys lefts rights =
  rows engine join predicate lefts rights := by
 rw [HashJoinExecutor.rows_eq]
 unfold rows Join.rows
 rw [flatMap_def, flatMap_def]
 apply congrArg
 apply map_congr_left
 intro left member
 apply congrArg
 apply filter_congr
 simp_all

theorem tests_of_rows {left right : Tuple}
 (same : SameRows engine join leftKeys rightKeys predicate [left] [right, right]) :
 HashJoinExecutor.test engine join leftKeys rightKeys left right =
  test engine join predicate left right := by
 obtain ⟨hashed, looped, emitsHashed, emitsLooped, perm⟩ := same
 rw [emitsHashed.unique (HashJoinExecutor.emits_rows ..),
  emitsLooped.unique (emits_rows ..)] at perm
 have twice : ∀ test : Tuple → Bool,
  (join.rows engine (fun _ => [right, right].filter test) [left]).length = 2 ↔
   test right = true := by
  intro test
  unfold Join.rows Join.rowsOf
  cases passes : test right <;> cases kind : join.joinType <;> simp [passes]
 have lengths := perm.length_eq
 rw [HashJoinExecutor.rows_eq] at lengths
 rw [Bool.eq_iff_iff, ← twice, ← twice (test engine join predicate left)]
 exact Eq.congr_left lengths

theorem sameRows_iff_tests {isLeft isRight : Tuple → Prop} :
 (∀ lefts rights, (∀ left ∈ lefts, isLeft left) → (∀ right ∈ rights, isRight right) →
  SameRows engine join leftKeys rightKeys predicate lefts rights) ↔
 ∀ left right, isLeft left → isRight right →
  HashJoinExecutor.test engine join leftKeys rightKeys left right =
   test engine join predicate left right := by
 constructor
 · intro same left right inLeft inRight
   apply tests_of_rows
   apply same
   · simp_all
   · intro other member
     have copy : other = right := by
      rcases mem_cons.mp member with first | second
      · exact first
      · exact mem_singleton.mp second
     rw [copy]
     exact inRight
 · intro agree lefts rights allLeft allRight
   refine ⟨_, _, HashJoinExecutor.emits_rows .., emits_rows .., ?_⟩
   rw [rows_eq_of_tests fun left member right inRights =>
    agree left right (allLeft left member) (allRight right inRights)]

end Tests

/-- The joins of key equalities emit the same rows, whatever children return these tuples,
exactly when the keys of every pair of tuples agree. -/
theorem hashJoin_agrees (lawful : engine.Lawful) (join : Join Schema) (columns : List (ℕ × ℕ))
 (isLeft isRight : Tuple → Prop) :
 (∀ lefts rights, (∀ left ∈ lefts, isLeft left) → (∀ right ∈ rights, isRight right) →
  SameRows engine join (columns.map fun pair => .columnValue 0 pair.1)
   (columns.map fun pair => .columnValue 1 pair.2)
   (Expression.conjunction engine columns) lefts rights) ↔
 ∀ left right, isLeft left → isRight right →
  (Expression.columnKeys columns).Agree engine join left right := by
 rw [sameRows_iff_tests]
 apply forall_congr'
 intro left
 apply forall_congr'
 intro right
 have looped := Keys.nestedLoopJoin_test lawful
  (Expression.evaluateJoin_conjunction lawful join columns left right)
 unfold Keys.Agree
 rw [← Keys.hashJoin_test, ← looped, ← Bool.eq_iff_iff]
 unfold Expression.columnKeys
 rw [map_map, map_map]
 rfl

section Examples

instance (join : Join Schema) (keys : Keys Value) (left right : Tuple) :
 Decidable (keys.Agree engine join left right) :=
 inferInstanceAs (Decidable (_ ↔ _))

def integers (values : List ℤ) : List Datum := values.map fun val => .integer (some val)

/-- Three columns on both sides, a left join on the second ones. -/
def sameLayout : Join (List ℕ) := ⟨.left, [0, 1, 2], [0, 1, 2], [0, 1, 2, 3, 4, 5]⟩

def leftRows : List (List Datum) := [integers [1, 5, 2], integers [1, 6, 3]]

def rightRows : List (List Datum) := [integers [4, 5, 7], integers [4, 5, 8]]

theorem hashJoin_agrees_sameLayout :
 SameRows wordEngine sameLayout [.columnValue 0 1] [.columnValue 1 1]
  (Expression.conjunction wordEngine [(1, 1)]) leftRows rightRows :=
 (hashJoin_agrees wordEngine_lawful sameLayout [(1, 1)] (· ∈ leftRows) (· ∈ rightRows)).mpr
  (fun left right inLeft inRight =>
   (by decide : ∀ left ∈ leftRows, ∀ right ∈ rightRows,
    (Expression.columnKeys [(1, 1)]).Agree wordEngine sameLayout left right)
    left inLeft right inRight)
  leftRows rightRows (fun _ member => member) fun _ member => member

/-- The second column of the left child is its third word. -/
def otherLayout : Join (List ℕ) := ⟨.inner, [0, 2], [0, 1, 2], [0, 2, 3, 4, 5]⟩

/-- The right key `5` is read as `7`. -/
theorem hashJoin_disagrees_otherLayout :
 ¬ SameRows wordEngine otherLayout [.columnValue 0 1] [.columnValue 1 1]
  (Expression.conjunction wordEngine [(1, 1)]) [integers [1, 0, 5]] [integers [4, 5, 7]] := by
 intro same
 obtain ⟨hashed, looped, emitsHashed, emitsLooped, perm⟩ := same
 have none := emitsHashed.unique (HashJoinExecutor.emits_rows ..)
 have one := emitsLooped.unique (emits_rows ..)
 have lengths := perm.length_eq
 rw [none, one] at lengths
 exact absurd lengths (by decide)

end Examples

end MyNotes.Cmu15445
