/-
`NestedLoopJoinExecutor` and `HashJoinExecutor` of project 3.

A child is the list of tuples that it still returns; both executors read the right child
to its end in `Init`.  That a nested loop join calls `Init` of the right child again has
no effect on what it emits.  The hash table keeps the right tuples of a key in the order
of their insertion, and an iterator into such a vector is the rest of the vector.
-/

import MyNotes.Library.PullIterator
import MyNotes.Cmu15445.Expression

namespace MyNotes.Cmu15445

open Library.PullIterator List

inductive JoinType where
 | inner
 | left
 deriving DecidableEq

structure Join (Schema : Type) where
 joinType : JoinType
 leftSchema : Schema
 rightSchema : Schema
 outputSchema : Schema

variable {Value Tuple Schema : Type} (engine : Engine Value Tuple Schema)

/-! ### Output tuples -/

def Engine.row (tuple : Tuple) (schema : Schema) : List Value :=
 (List.range (engine.getColumnCount schema)).map (engine.getValue tuple schema)

def Engine.nullRow (schema : Schema) : List Value :=
 (List.range (engine.getColumnCount schema)).map (engine.getNullValue schema)

namespace Join

variable (join : Join Schema)

def joined (left right : Tuple) : Tuple :=
 engine.makeTuple (engine.row left join.leftSchema ++ engine.row right join.rightSchema)
  join.outputSchema

def padded (left : Tuple) : Tuple :=
 engine.makeTuple (engine.row left join.leftSchema ++ engine.nullRow join.rightSchema)
  join.outputSchema

end Join

/-- The rows of one left tuple, given the right tuples that match it. -/
def Join.rowsOf (join : Join Schema) (left : Tuple) : List Tuple → List Tuple
 | right :: others => (right :: others).map (join.joined engine left)
 | [] =>
  match join.joinType with
  | .left => [join.padded engine left]
  | .inner => []

def Join.rows (join : Join Schema) (found : Tuple → List Tuple) (lefts : List Tuple) :
 List Tuple :=
 lefts.flatMap fun left => join.rowsOf engine left (found left)

/-- The rows of one left tuple, and whether they have a right tuple. -/
def Join.markedRowsOf (join : Join Schema) (left : Tuple) : List Tuple → List (Tuple × Bool)
 | right :: others => (right :: others).map fun right => (join.joined engine left right, true)
 | [] =>
  match join.joinType with
  | .left => [(join.padded engine left, false)]
  | .inner => []

def Join.markedRows (join : Join Schema) (found : Tuple → List Tuple) (lefts : List Tuple) :
 List (Tuple × Bool) :=
 lefts.flatMap fun left => join.markedRowsOf engine left (found left)

theorem Join.map_markedRowsOf (join : Join Schema) (left : Tuple) (found : List Tuple) :
 (join.markedRowsOf engine left found).map Prod.fst = join.rowsOf engine left found := by
 cases found with
 | cons right others => exact map_map
 | nil =>
  unfold Join.markedRowsOf Join.rowsOf
  cases join.joinType with
  | inner => rfl
  | left => rfl

theorem Join.map_markedRows (join : Join Schema) (found : Tuple → List Tuple)
 (lefts : List Tuple) :
 (join.markedRows engine found lefts).map Prod.fst = join.rows engine found lefts := by
 unfold Join.markedRows Join.rows
 rw [map_flatMap]
 simp only [Join.map_markedRowsOf]

/-! ### Nested loop join -/

namespace NestedLoopJoinExecutor

structure State (Tuple : Type) where
 left : List Tuple
 hasJoin : Bool
 leftPreviousTuple : Tuple
 rightPreviousIndex : ℕ

variable (join : Join Schema) (predicate : Expression Value)

def test (left right : Tuple) : Bool :=
 engine.getAsBool (predicate.evaluateJoin engine left join.leftSchema right join.rightSchema)

/-- The first tuple from an index on that passes the test, with its index. -/
def findMatch (left : Tuple) : List Tuple → ℕ → Option (ℕ × Tuple)
 | [], _ => none
 | right :: rest, index =>
  if test engine join predicate left right then some (index, right)
  else findMatch left rest (index + 1)

def nextLeft (rightTuples : List Tuple) (state : State Tuple) :
 List Tuple → Option (Tuple × State Tuple)
 | [] => none
 | left :: rest =>
  match findMatch engine join predicate left rightTuples 0, join.joinType with
  | some (index, right), _ =>
   some (join.joined engine left right, ⟨rest, true, left, index⟩)
  | none, .left => some (join.padded engine left, { state with left := rest })
  | none, .inner => nextLeft rightTuples { state with left := rest } rest

def next (rightTuples : List Tuple) (state : State Tuple) : Option (Tuple × State Tuple) :=
 if state.hasJoin then
  let start := state.rightPreviousIndex + 1
  match findMatch engine join predicate state.leftPreviousTuple (rightTuples.drop start)
   start with
  | some (index, right) =>
   some (join.joined engine state.leftPreviousTuple right,
    { state with rightPreviousIndex := index })
  | none => nextLeft engine join predicate rightTuples { state with hasJoin := false } state.left
 else nextLeft engine join predicate rightTuples state state.left

def init (left : List Tuple) : State Tuple := ⟨left, false, engine.emptyTuple, 0⟩

variable {engine join predicate}

variable {rights : List Tuple}

theorem findMatch_none {left : Tuple} {start : ℕ}
 (absent : findMatch engine join predicate left rights start = none) :
 rights.filter (test engine join predicate left) = [] := by
 induction rights generalizing start with
 | nil => rfl
 | cons right rest ih =>
  unfold findMatch at absent
  by_cases passes : test engine join predicate left right
  · simp_all
  · grind

theorem findMatch_some {left right : Tuple} {start index : ℕ}
 (found : findMatch engine join predicate left rights start = some (index, right)) :
 start ≤ index ∧ index < start + rights.length ∧
  rights.filter (test engine join predicate left) =
   right :: (rights.drop (index + 1 - start)).filter (test engine join predicate left) := by
 induction rights generalizing start with
 | nil => cases found
 | cons first rest ih =>
  unfold findMatch at found
  by_cases passes : test engine join predicate left first
  · rw [if_pos passes] at found
    cases found
    refine ⟨Nat.le_refl _, ?_, ?_⟩
    · rw [length_cons]
      omega
    · simp_all
  · rw [if_neg passes] at found
    obtain ⟨later, bounded, same⟩ := ih found
    refine ⟨by omega, ?_, ?_⟩
    · rw [length_cons]
      omega
    · have shifted : index + 1 - start = (index + 1 - (start + 1)) + 1 := by omega
      simp_all

def rows (engine : Engine Value Tuple Schema) (join : Join Schema) (predicate : Expression Value)
 (lefts rights : List Tuple) : List Tuple :=
 join.rows engine (fun left => rights.filter (test engine join predicate left)) lefts

theorem emits_saved {lefts : List Tuple}
 (afterwards : ∀ state : State Tuple, state.hasJoin = false → state.left = lefts →
  Emits (next engine join predicate rights) state (rows engine join predicate lefts rights))
 (previous : Tuple) (index : ℕ) :
 Emits (next engine join predicate rights) ⟨lefts, true, previous, index⟩
  (((rights.drop (index + 1)).filter (test engine join predicate previous)).map
   (join.joined engine previous) ++ rows engine join predicate lefts rights) := by
 induction size : rights.length - index using Nat.strongRecOn generalizing index with
 | ind size ih =>
  subst size
  cases found : findMatch engine join predicate previous (rights.drop (index + 1))
   (index + 1) with
  | none =>
   rw [findMatch_none found]
   apply (afterwards ⟨lefts, false, previous, index⟩ rfl rfl).congr
   unfold next
   simp_all
  | some both =>
   obtain ⟨later, right⟩ := both
   obtain ⟨above, below, rest⟩ := findMatch_some found
   rw [length_drop] at below
   rw [rest, drop_drop, show index + 1 + (later + 1 - (index + 1)) = later + 1 by omega]
   refine .more ?_ (ih (rights.length - later) (by omega) later rfl)
   unfold next
   dsimp only
   rw [if_pos rfl, found]

theorem emits_unsaved (rights lefts : List Tuple) :
 ∀ state : State Tuple, state.hasJoin = false → state.left = lefts →
  Emits (next engine join predicate rights) state
   (rows engine join predicate lefts rights) := by
 induction lefts with
 | nil =>
  intro state unsaved ended
  apply Emits.done
  unfold next
  rw [unsaved, ended]
  rfl
 | cons left rest ih =>
  intro state unsaved remaining
  have pulled : next engine join predicate rights state =
   nextLeft engine join predicate rights state (left :: rest) := by
   unfold next
   rw [unsaved, remaining]
   rfl
  unfold nextLeft at pulled
  change Emits _ _ (join.rowsOf engine left (rights.filter _) ++ rows engine join predicate rest
   rights)
  cases found : findMatch engine join predicate left rights 0 with
  | none =>
   rw [found] at pulled
   rw [findMatch_none found]
   unfold Join.rowsOf
   cases kind : join.joinType with
   | left =>
    rw [kind] at pulled
    exact .more pulled (ih _ unsaved rfl)
   | inner =>
    rw [kind] at pulled
    apply (ih { state with left := rest } unsaved rfl).congr
    rw [pulled]
    unfold next
    simp_all
  | some both =>
   obtain ⟨index, right⟩ := both
   obtain ⟨-, -, same⟩ := findMatch_some found
   rw [found] at pulled
   rw [same]
   exact .more pulled (emits_saved ih left index)

theorem emits_rows (lefts rights : List Tuple) :
 Emits (next engine join predicate rights) (init engine lefts)
  (rows engine join predicate lefts rights) :=
 emits_unsaved rights lefts _ rfl rfl

end NestedLoopJoinExecutor

/-! ### Hash join -/

/-- `operator==` of `HashJoinKey`; both keys have the same length. -/
def hashJoinKeyEquals : List Value → List Value → Bool
 | _, [] => true
 | [], _ :: _ => true
 | value :: rest, other :: otherRest =>
  if engine.compareEquals value other ≠ .cmpTrue then false
  else hashJoinKeyEquals rest otherRest

/-- The keys and tuples that were inserted, in order. -/
abbrev SimpleHashJoinHashTable (Value Tuple : Type) := List (List Value × Tuple)

/-- The tuples under an equal key; without any, the code has a null pointer. -/
def SimpleHashJoinHashTable.getValue (table : SimpleHashJoinHashTable Value Tuple)
 (key : List Value) : List Tuple :=
 (table.filter fun entry => hashJoinKeyEquals engine key entry.1).map Prod.snd

namespace HashJoinExecutor

structure State (Tuple : Type) where
 left : List Tuple
 hasHashJoin : Bool
 leftPreviousTuple : Tuple
 rightTuplesIterator : List Tuple

variable (join : Join Schema) (leftKeys rightKeys : List (Expression Value))

def makeLeftJoinKey (tuple : Tuple) : List Value :=
 leftKeys.map (Expression.evaluate engine tuple join.leftSchema)

/-- The tuple of the right child is read with the schema of the left one. -/
def makeRightJoinKey (tuple : Tuple) : List Value :=
 rightKeys.map (Expression.evaluate engine tuple join.leftSchema)

def test (left right : Tuple) : Bool :=
 hashJoinKeyEquals engine (makeLeftJoinKey engine join leftKeys left)
  (makeRightJoinKey engine join rightKeys right)

/-- The hash table that `Init` fills. -/
def init (rights : List Tuple) : SimpleHashJoinHashTable Value Tuple :=
 rights.map fun right => (makeRightJoinKey engine join rightKeys right, right)

def nextLeft (table : SimpleHashJoinHashTable Value Tuple) (state : State Tuple) :
 List Tuple → Option (Tuple × State Tuple)
 | [] => none
 | left :: rest =>
  match table.getValue engine (makeLeftJoinKey engine join leftKeys left), join.joinType with
  | right :: others, _ =>
   some (join.joined engine left right, ⟨rest, true, left, right :: others⟩)
  | [], .left =>
   some (join.padded engine left, { state with left := rest, rightTuplesIterator := [] })
  | [], .inner => nextLeft table { state with left := rest, rightTuplesIterator := [] } rest

def next (table : SimpleHashJoinHashTable Value Tuple) (state : State Tuple) :
 Option (Tuple × State Tuple) :=
 if state.hasHashJoin then
  match state.rightTuplesIterator.tail with
  | right :: others =>
   some (join.joined engine state.leftPreviousTuple right,
    { state with rightTuplesIterator := right :: others })
  | [] =>
   nextLeft engine join leftKeys table
    { state with hasHashJoin := false, rightTuplesIterator := [] } state.left
 else nextLeft engine join leftKeys table state state.left

def start (left : List Tuple) : State Tuple := ⟨left, false, engine.emptyTuple, []⟩

def rows (engine : Engine Value Tuple Schema) (join : Join Schema)
 (leftKeys rightKeys : List (Expression Value)) (lefts rights : List Tuple) : List Tuple :=
 join.rows engine (fun left => (init engine join rightKeys rights).getValue engine
  (makeLeftJoinKey engine join leftKeys left)) lefts

variable {engine join leftKeys}

omit leftKeys in
theorem getValue_init (rightKeys : List (Expression Value)) (rights : List Tuple)
 (key : List Value) :
 (init engine join rightKeys rights).getValue engine key =
  rights.filter fun right =>
   hashJoinKeyEquals engine key (makeRightJoinKey engine join rightKeys right) := by
 unfold SimpleHashJoinHashTable.getValue init
 rw [filter_map, map_map]
 exact map_id _

theorem rows_eq (rightKeys : List (Expression Value)) (lefts rights : List Tuple) :
 rows engine join leftKeys rightKeys lefts rights = join.rows engine
  (fun left => rights.filter (test engine join leftKeys rightKeys left)) lefts := by
 unfold rows
 simp only [getValue_init]
 rfl

theorem emits_saved {table : SimpleHashJoinHashTable Value Tuple} {lefts : List Tuple}
 {after : List (Tuple × Bool)}
 (afterwards : ∀ state : State Tuple, state.hasHashJoin = false → state.left = lefts →
  Emits (marked (next engine join leftKeys table) State.hasHashJoin) state after)
 (previous current : Tuple) (others : List Tuple) :
 Emits (marked (next engine join leftKeys table) State.hasHashJoin)
  ⟨lefts, true, previous, current :: others⟩
  (others.map (fun right => (join.joined engine previous right, true)) ++ after) := by
 induction others generalizing current with
 | nil => exact (afterwards ⟨lefts, false, previous, []⟩ rfl rfl).congr rfl
 | cons right rest ih => exact .more rfl (ih right)

theorem emits_unsaved (table : SimpleHashJoinHashTable Value Tuple) (lefts : List Tuple) :
 ∀ state : State Tuple, state.hasHashJoin = false → state.left = lefts →
  Emits (marked (next engine join leftKeys table) State.hasHashJoin) state
   (join.markedRows engine (fun left => table.getValue engine
    (makeLeftJoinKey engine join leftKeys left)) lefts) := by
 induction lefts with
 | nil =>
  intro state unsaved ended
  apply Emits.done
  unfold marked next
  rw [unsaved, ended]
  rfl
 | cons left rest ih =>
  intro state unsaved remaining
  have pulled : next engine join leftKeys table state =
   nextLeft engine join leftKeys table state (left :: rest) := by
   unfold next
   rw [unsaved, remaining]
   rfl
  unfold nextLeft at pulled
  change Emits _ _ (join.markedRowsOf engine left (table.getValue engine _) ++
   join.markedRows engine _ rest)
  cases found : table.getValue engine (makeLeftJoinKey engine join leftKeys left) with
  | nil =>
   rw [found] at pulled
   unfold Join.markedRowsOf
   cases kind : join.joinType with
   | left =>
    rw [kind] at pulled
    have given : marked (next engine join leftKeys table) State.hasHashJoin state =
     some ((join.padded engine left, state.hasHashJoin),
      { state with left := rest, rightTuplesIterator := [] }) := marked_some pulled
    rw [unsaved] at given
    exact .more given (ih _ rfl rfl)
   | inner =>
    rw [kind] at pulled
    apply (ih { state with left := rest, rightTuplesIterator := [] } unsaved rfl).congr
    unfold marked
    rw [pulled]
    unfold next
    simp_all
  | cons right others =>
   rw [found] at pulled
   exact .more (marked_some pulled) (emits_saved ih left right others)

theorem emits_rows (rightKeys : List (Expression Value)) (lefts rights : List Tuple) :
 Emits (next engine join leftKeys (init engine join rightKeys rights)) (start engine lefts)
  (rows engine join leftKeys rightKeys lefts rights) := by
 unfold rows
 rw [← Join.map_markedRows]
 exact (emits_unsaved _ lefts _ rfl rfl).of_marked

end HashJoinExecutor

end MyNotes.Cmu15445
