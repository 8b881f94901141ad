/-
`Optimizer::OptimizeNLJAsHashJoin` of project 3.

A plan node without joins is a leaf with its result, or an operator on the result of its
child.  `ParseAndExpression` fills two vectors; they always grow together.
-/

import MyNotes.Cmu15445.EquiJoin

namespace MyNotes.Cmu15445

open Library.PullIterator NestedLoopJoinExecutor HashJoinExecutor

variable {Value Tuple Schema : Type}

inductive Plan (Value Tuple Schema : Type) where
 | leaf (outputSchema : Schema) (result : List Tuple)
 | unary (outputSchema : Schema) (operator : List Tuple → List Tuple)
  (child : Plan Value Tuple Schema)
 | nestedLoopJoin (outputSchema : Schema) (joinType : JoinType) (predicate : Expression Value)
  (left right : Plan Value Tuple Schema)
 | hashJoin (outputSchema : Schema) (joinType : JoinType)
  (leftKeys rightKeys : List (Expression Value)) (left right : Plan Value Tuple Schema)

/-! ### The rewrite; `none` is a call through a null pointer -/

/-- The key expressions of a predicate.  Every `LogicExpression` is split, and what is not
an equality gives no keys. -/
def parseAndExpression : Expression Value → Option (Keys Value)
 | .logic _ left right =>
  (parseAndExpression left).bind fun first =>
   (parseAndExpression right).map fun second => first ++ second
 | .comparison .equal left right =>
  match left with
  | .columnValue tupleIdx colIdx =>
   if tupleIdx = 0 then some [(.columnValue tupleIdx colIdx, right)]
   else some [(right, .columnValue tupleIdx colIdx)]
  | _ => none
 | _ => some []

namespace Plan

def outputSchema : Plan Value Tuple Schema → Schema
 | leaf schema _ => schema
 | unary schema _ _ => schema
 | nestedLoopJoin schema _ _ _ _ => schema
 | hashJoin schema _ _ _ _ _ => schema

def optimizeNLJAsHashJoin : Plan Value Tuple Schema → Option (Plan Value Tuple Schema)
 | leaf schema result => some (leaf schema result)
 | unary schema operator child =>
  (optimizeNLJAsHashJoin child).map fun child => unary schema operator child
 | nestedLoopJoin schema joinType predicate left right =>
  (optimizeNLJAsHashJoin left).bind fun left =>
   (optimizeNLJAsHashJoin right).bind fun right =>
    (parseAndExpression predicate).map fun keys =>
     hashJoin schema joinType (keys.map Prod.fst) (keys.map Prod.snd) left right
 | hashJoin schema joinType leftKeys rightKeys left right =>
  (optimizeNLJAsHashJoin left).bind fun left =>
   (optimizeNLJAsHashJoin right).map fun right =>
    hashJoin schema joinType leftKeys rightKeys left right

/-! ### Execution -/

variable (engine : Engine Value Tuple Schema)

inductive Executes : Plan Value Tuple Schema → List Tuple → Prop
 | leaf (schema : Schema) (result : List Tuple) : Executes (.leaf schema result) result
 | unary (schema : Schema) (operator : List Tuple → List Tuple)
  {child : Plan Value Tuple Schema} {result : List Tuple} (below : Executes child result) :
  Executes (.unary schema operator child) (operator result)
 | nestedLoopJoin (schema : Schema) (joinType : JoinType) (predicate : Expression Value)
  {left right : Plan Value Tuple Schema} {lefts rights result : List Tuple}
  (first : Executes left lefts) (second : Executes right rights)
  (emits : Emits (NestedLoopJoinExecutor.next engine
   ⟨joinType, left.outputSchema, right.outputSchema, schema⟩ predicate rights)
   (NestedLoopJoinExecutor.init engine lefts) result) :
  Executes (.nestedLoopJoin schema joinType predicate left right) result
 | hashJoin (schema : Schema) (joinType : JoinType) (leftKeys rightKeys : List (Expression Value))
  {left right : Plan Value Tuple Schema} {lefts rights result : List Tuple}
  (first : Executes left lefts) (second : Executes right rights)
  (emits : Emits (HashJoinExecutor.next engine
   ⟨joinType, left.outputSchema, right.outputSchema, schema⟩ leftKeys
   (HashJoinExecutor.init engine ⟨joinType, left.outputSchema, right.outputSchema, schema⟩
    rightKeys rights)) (HashJoinExecutor.start engine lefts) result) :
  Executes (.hashJoin schema joinType leftKeys rightKeys left right) result

def rows : Plan Value Tuple Schema → List Tuple
 | leaf _ result => result
 | unary _ operator child => operator child.rows
 | nestedLoopJoin schema joinType predicate left right =>
  NestedLoopJoinExecutor.rows engine
   ⟨joinType, left.outputSchema, right.outputSchema, schema⟩ predicate left.rows right.rows
 | hashJoin schema joinType leftKeys rightKeys left right =>
  HashJoinExecutor.rows engine ⟨joinType, left.outputSchema, right.outputSchema, schema⟩
   leftKeys rightKeys left.rows right.rows

variable {engine}

theorem executes_rows (plan : Plan Value Tuple Schema) :
 plan.Executes engine (plan.rows engine) := by
 induction plan with
 | leaf schema result => exact .leaf schema result
 | unary schema operator child ih => exact .unary schema operator ih
 | nestedLoopJoin schema joinType predicate left right first second =>
  exact .nestedLoopJoin schema joinType predicate first second
   (emits_rows ..)
 | hashJoin schema joinType leftKeys rightKeys left right first second =>
  exact .hashJoin schema joinType leftKeys rightKeys first second
   (emits_rows ..)

theorem Executes.eq_rows {plan : Plan Value Tuple Schema} {result : List Tuple}
 (executes : plan.Executes engine result) : result = plan.rows engine := by
 induction executes with
 | leaf schema result => rfl
 | unary schema operator below ih => rw [ih]; rfl
 | nestedLoopJoin schema joinType predicate first second emits one two =>
  subst one two
  exact emits.unique (emits_rows ..)
 | hashJoin schema joinType leftKeys rightKeys first second emits one two =>
  subst one two
  exact emits.unique (emits_rows ..)

end Plan

/-! ### Convertible predicates -/

namespace Expression

def ReadsOnly (side : ℕ → Prop) : Expression Value → Prop
 | columnValue tupleIdx _ => side tupleIdx
 | constantValue _ => True
 | comparison _ left right => ReadsOnly side left ∧ ReadsOnly side right
 | logic _ left right => ReadsOnly side left ∧ ReadsOnly side right

variable (engine : Engine Value Tuple Schema)

/-- A conjunction of `TRUE` and of equalities of a column and an expression on columns of
the other side. -/
def Convertible : Expression Value → Prop
 | logic .and left right => Convertible left ∧ Convertible right
 | comparison .equal (columnValue tupleIdx _) right =>
  right.ReadsOnly fun other => tupleIdx = 0 ↔ other ≠ 0
 | constantValue val => val = engine.getBooleanValue .cmpTrue
 | _ => False

/-- The equalities of a conjunction, with the left key first. -/
def equalities : Expression Value → Keys Value
 | logic _ left right => equalities left ++ equalities right
 | comparison .equal (columnValue tupleIdx colIdx) right =>
  if tupleIdx = 0 then [(columnValue tupleIdx colIdx, right)]
  else [(right, columnValue tupleIdx colIdx)]
 | _ => []

variable {engine} {left right : Tuple} {leftSchema rightSchema : Schema}

variable {expression : Expression Value}

theorem evaluateJoin_left (reads : expression.ReadsOnly (· = 0)) :
 expression.evaluateJoin engine left leftSchema right rightSchema =
  expression.evaluate engine left leftSchema := by
 induction expression with
 | columnValue tupleIdx colIdx => exact if_pos reads
 | constantValue val => rfl
 | comparison compType first second one two =>
  exact congrArg₂ (engine.comparison compType) (one reads.1) (two reads.2)
 | logic logicType first second one two =>
  exact congrArg₂ (engine.logic logicType) (one reads.1) (two reads.2)

theorem evaluateJoin_right (reads : expression.ReadsOnly (· ≠ 0)) :
 expression.evaluateJoin engine left leftSchema right rightSchema =
  expression.evaluate engine right rightSchema := by
 induction expression with
 | columnValue tupleIdx colIdx => exact if_neg reads
 | constantValue val => rfl
 | comparison compType first second one two =>
  exact congrArg₂ (engine.comparison compType) (one reads.1) (two reads.2)
 | logic logicType first second one two =>
  exact congrArg₂ (engine.logic logicType) (one reads.1) (two reads.2)

theorem ReadsOnly.mono {side wider : ℕ → Prop}
 (implies : ∀ tupleIdx, side tupleIdx → wider tupleIdx) (reads : expression.ReadsOnly side) :
 expression.ReadsOnly wider := by
 induction expression with
 | columnValue tupleIdx colIdx => exact implies tupleIdx reads
 | constantValue val => trivial
 | comparison compType first second one two => exact ⟨one reads.1, two reads.2⟩
 | logic logicType first second one two => exact ⟨one reads.1, two reads.2⟩

theorem parse_convertible {predicate : Expression Value}
 (convertible : predicate.Convertible engine) :
 parseAndExpression predicate = some predicate.equalities := by
 fun_induction Convertible engine predicate with
 | case1 first second one two =>
  unfold parseAndExpression equalities
  simp_all
 | case2 tupleIdx colIdx other =>
  unfold parseAndExpression equalities
  dsimp only
  split <;> rfl
 | case3 val => rfl
 | case4 => exact convertible.elim

theorem evaluateJoin_convertible (lawful : engine.Lawful) {join : Join Schema}
 {predicate : Expression Value} (convertible : predicate.Convertible engine) :
 predicate.evaluateJoin engine left join.leftSchema right join.rightSchema =
  engine.getBooleanValue
   (.all (predicate.equalities.results engine join join.rightSchema left right)) := by
 fun_induction Convertible engine predicate with
 | case1 first second one two =>
  have value : (logic .and first second).evaluateJoin engine left join.leftSchema right
   join.rightSchema = engine.logic .and
    (first.evaluateJoin engine left join.leftSchema right join.rightSchema)
    (second.evaluateJoin engine left join.leftSchema right join.rightSchema) := rfl
  rw [value, one convertible.1, two convertible.2, lawful.logic_and, ← CmpBool.all_append,
   ← Keys.results_append]
  rfl
 | case2 tupleIdx colIdx other =>
  have compared : (comparison .equal (columnValue tupleIdx colIdx) other).evaluateJoin engine
   left join.leftSchema right join.rightSchema = engine.getBooleanValue
    (engine.compareEquals
     ((columnValue tupleIdx colIdx).evaluateJoin engine left join.leftSchema right
      join.rightSchema)
     (other.evaluateJoin engine left join.leftSchema right join.rightSchema)) :=
   lawful.comparison_equal _ _
  rw [compared]
  apply congrArg engine.getBooleanValue
  unfold equalities
  by_cases onLeft : tupleIdx = 0
  · have column : (columnValue tupleIdx colIdx : Expression Value).ReadsOnly (· = 0) := onLeft
    have reads : other.ReadsOnly (· ≠ 0) := convertible.mono fun _ both => both.mp onLeft
    rw [evaluateJoin_left column, evaluateJoin_right reads, if_pos onLeft]
    exact (CmpBool.all_singleton _).symm
  · have column : (columnValue tupleIdx colIdx : Expression Value).ReadsOnly (· ≠ 0) := onLeft
    have reads : other.ReadsOnly (· = 0) := by
     apply convertible.mono
     intro index both
     by_contra onRight
     exact onLeft (both.mpr onRight)
    rw [evaluateJoin_right column, evaluateJoin_left reads, if_neg onLeft,
     lawful.compareEquals_comm]
    exact (CmpBool.all_singleton _).symm
 | case3 val =>
  exact convertible
 | case4 => exact convertible.elim

end Expression

/-! ### The rewrite preserves results -/

namespace Plan

variable (engine : Engine Value Tuple Schema)

/-- Every nested loop join has a convertible predicate, whose keys agree on all pairs of
tuples of its children. -/
def Convertible : Plan Value Tuple Schema → Prop
 | leaf _ _ => True
 | unary _ _ child => child.Convertible
 | nestedLoopJoin schema joinType predicate left right =>
  left.Convertible ∧ right.Convertible ∧ predicate.Convertible engine ∧
   ∀ first ∈ left.rows engine, ∀ second ∈ right.rows engine,
    predicate.equalities.Agree engine
     ⟨joinType, left.outputSchema, right.outputSchema, schema⟩ first second
 | hashJoin _ _ _ _ left right => left.Convertible ∧ right.Convertible

/-- The rewrite succeeds, and both plans end with the same rows up to their order. -/
def SameResult (plan : Plan Value Tuple Schema) : Prop :=
 ∃ optimized before after, plan.optimizeNLJAsHashJoin = some optimized ∧
  plan.Executes engine before ∧ optimized.Executes engine after ∧ after.Perm before

variable {engine}

theorem tests_of_convertible (lawful : engine.Lawful) {join : Join Schema}
 {predicate : Expression Value} (convertible : predicate.Convertible engine)
 {left right : Tuple} (agree : predicate.equalities.Agree engine join left right) :
 test engine join (predicate.equalities.map Prod.fst)
  (predicate.equalities.map Prod.snd) left right =
  test engine join predicate left right := by
 rw [Bool.eq_iff_iff, Keys.hashJoin_test,
  Keys.nestedLoopJoin_test lawful (Expression.evaluateJoin_convertible lawful convertible)]
 exact agree

theorem optimized_rows (lawful : engine.Lawful) (plan : Plan Value Tuple Schema)
 (convertible : plan.Convertible engine) :
 ∃ optimized, plan.optimizeNLJAsHashJoin = some optimized ∧
  optimized.outputSchema = plan.outputSchema ∧ optimized.rows engine = plan.rows engine := by
 induction plan with
 | leaf schema result => exact ⟨_, rfl, rfl, rfl⟩
 | unary schema operator child ih =>
  obtain ⟨newChild, found, -, same⟩ := ih convertible
  refine ⟨.unary schema operator newChild, ?_, rfl, congrArg operator same⟩
  unfold optimizeNLJAsHashJoin
  rw [found]
  rfl
 | nestedLoopJoin schema joinType predicate left right one two =>
  obtain ⟨first, second, shape, agree⟩ := convertible
  obtain ⟨newLeft, foundLeft, leftSchema, sameLeft⟩ := one first
  obtain ⟨newRight, foundRight, rightSchema, sameRight⟩ := two second
  refine ⟨.hashJoin schema joinType (predicate.equalities.map Prod.fst)
   (predicate.equalities.map Prod.snd) newLeft newRight, ?_, rfl, ?_⟩
  · unfold optimizeNLJAsHashJoin
    rw [foundLeft, foundRight, Expression.parse_convertible shape]
    rfl
  · unfold rows
    rw [leftSchema, rightSchema, sameLeft, sameRight]
    apply rows_eq_of_tests
    intro leftTuple inLeft rightTuple inRight
    exact tests_of_convertible lawful shape (agree leftTuple inLeft rightTuple inRight)
 | hashJoin schema joinType leftKeys rightKeys left right one two =>
  obtain ⟨newLeft, foundLeft, leftSchema, sameLeft⟩ := one convertible.1
  obtain ⟨newRight, foundRight, rightSchema, sameRight⟩ := two convertible.2
  refine ⟨.hashJoin schema joinType leftKeys rightKeys newLeft newRight, ?_, rfl, ?_⟩
  · unfold optimizeNLJAsHashJoin
    rw [foundLeft, foundRight]
    rfl
  · unfold rows
    simp_all

/-- The rewrite keeps the result of every convertible plan. -/
theorem optimizeNLJAsHashJoin_preserves (lawful : engine.Lawful) (plan : Plan Value Tuple Schema)
 (convertible : plan.Convertible engine) : plan.SameResult engine := by
 obtain ⟨optimized, found, -, same⟩ := optimized_rows lawful plan convertible
 refine ⟨optimized, _, _, found, executes_rows plan, executes_rows optimized, ?_⟩
 rw [same]

section Examples

/-- `t0 JOIN t1 ON t0.a = t1.a AND t1.b = t0.b`, then `LEFT JOIN t2` on two columns of the
result. -/
def chained : Plan Datum (List Datum) (List ℕ) :=
 .nestedLoopJoin [0, 1, 2, 3, 4, 5] .left
  (.logic .and (.constantValue (.boolean .cmpTrue))
   (.comparison .equal (.columnValue 1 0) (.columnValue 0 3)))
  (.nestedLoopJoin [0, 1, 2, 3] .inner
   (.logic .and (.comparison .equal (.columnValue 0 0) (.columnValue 1 0))
    (.comparison .equal (.columnValue 1 1) (.columnValue 0 1)))
   (.leaf [0, 1] [integers [1, 2], integers [3, 4]])
   (.leaf [0, 1] [integers [3, 4], integers [1, 5], integers [3, 4]]))
  (.leaf [0, 1] [integers [4, 9], integers [7, 9]])

theorem optimizeNLJAsHashJoin_preserves_chained : chained.SameResult wordEngine := by
 apply optimizeNLJAsHashJoin_preserves wordEngine_lawful
 have onLeft : (0 : ℕ) = 0 ↔ (1 : ℕ) ≠ 0 := by decide
 have onRight : (1 : ℕ) = 0 ↔ (0 : ℕ) ≠ 0 := by decide
 exact ⟨⟨trivial, trivial, ⟨onLeft, onRight⟩, by decide⟩, trivial, ⟨rfl, onRight⟩, by decide⟩

/-- `a < b` has no keys, so that the hash join emits every pair. -/
theorem optimizeNLJAsHashJoin_drops_inequality :
 ¬ (Plan.nestedLoopJoin [0, 1] .inner
  (.comparison .lessThan (.columnValue 0 0) (.columnValue 1 0))
  (.leaf [0] [integers [5]]) (.leaf [0] [integers [3]])).SameResult wordEngine := by
 intro same
 obtain ⟨optimized, before, after, found, executed, executedAfter, perm⟩ := same
 cases found
 have lengths := perm.length_eq
 rw [executed.eq_rows, executedAfter.eq_rows] at lengths
 exact absurd lengths (by decide)

end Examples

end Plan

end MyNotes.Cmu15445
