/-
The topological sort of the critical path notes.

A vertex is put on the inner stack when the last edge into it has been taken.  So the vertices come
off that stack in an order in which each is after all that have edges into it, and the earliest
times are brought up to date along that order.
-/

import MyNotes.Library.CheckedInt
import MyNotes.Library.WeightedWalk
import Mathlib.Algebra.BigOperators.Group.Finset.Basic
import Mathlib.Data.Fintype.EquivFin

namespace MyNotes.Algorithms.TopologicalSort

open Library.CheckedInt Library.Fallible Library.WeightedWalk Function List Int

variable {n : ℕ}

structure EdgeNode (n : ℕ) where
 adjvex : Fin n
 w : ℤ

/-- A vertex with the number of edges into it and the list of the edges from it. -/
structure VertexNode (n : ℕ) where
 in_ : ℤ
 fristedge : List (EdgeNode n)

structure GraphAdjList (n : ℕ) where
 adjlist : Fin n → VertexNode n

/-- The members of the class; the stack has its top first. -/
structure CritialPath (n : ℕ) where
 etv : Fin n → ℤ
 ltv : Fin n → ℤ
 ete : List ℤ
 lte : List ℤ
 stk : List (Fin n)

def CritialPath.new : CritialPath n := ⟨fun _ => 0, fun _ => 0, [], [], []⟩

/-- What the loop works on: the `in` fields of the copy of the graph, the two stacks and the
earliest times. -/
structure Sorting (n : ℕ) where
 in_ : Fin n → ℤ
 stk_inner : List (Fin n)
 stk : List (Fin n)
 etv : Fin n → ℤ

def visit (gettop : Fin n) (s : Sorting n) (p : EdgeNode n) : Except Fault (Sorting n) :=
 let in_ := update s.in_ p.adjvex (s.in_ p.adjvex - 1)
 let stk_inner := if in_ p.adjvex = 0 then p.adjvex :: s.stk_inner else s.stk_inner
 (toInt (s.etv gettop + p.w)).map fun time =>
  { s with
   in_ := in_
   stk_inner := stk_inner
   etv := if time > s.etv p.adjvex then update s.etv p.adjvex time else s.etv }

def sortLoop (G : GraphAdjList n) : ℕ → Sorting n → Except Fault (Sorting n)
 | 0, _ => .error .unfinished
 | rounds + 1, s =>
  match s.stk_inner with
  | [] => .ok s
  | gettop :: stk_inner =>
   ((G.adjlist gettop).fristedge.foldlM (visit gettop)
    { s with stk_inner := stk_inner, stk := gettop :: s.stk }).bind (sortLoop G rounds)

def initial (c : CritialPath n) (G : GraphAdjList n) : Sorting n where
 in_ v := (G.adjlist v).in_
 stk_inner := (List.finRange n).foldl
  (fun stk_inner i => if (G.adjlist i).in_ = 0 then i :: stk_inner else stk_inner) []
 stk := c.stk
 etv _ := 0

def topologicalSort (rounds : ℕ) (c : CritialPath n) (G : GraphAdjList n) :
 Except Fault (Bool × CritialPath n) :=
 (sortLoop G rounds (initial c G)).map fun s =>
  (decide (s.stk.length = n), { c with etv := s.etv, stk := s.stk })

/-! ### What is left to do -/

variable {G : GraphAdjList n} {s : Sorting n} {popped : List (Fin n)} {rest : List (EdgeNode n)}
variable {v k gettop : Fin n} {p : EdgeNode n}

def edge (G : GraphAdjList n) (v x : Fin n) (cost : ℤ) : Prop :=
 ⟨x, cost⟩ ∈ (G.adjlist v).fristedge

def count (k : Fin n) (edges : List (EdgeNode n)) : ℕ :=
 edges.countP fun p => p.adjvex = k

/-- The `in` fields are the numbers of edges into the vertices. -/
def InDegrees (G : GraphAdjList n) : Prop :=
 ∀ k, (G.adjlist k).in_ = (∑ v, count k (G.adjlist v).fristedge : ℕ)

instance (G : GraphAdjList n) : Decidable (InDegrees G) :=
 inferInstanceAs (Decidable (∀ _, _ = _))

/-- How many edges go to the vertex from the ones that are not popped. -/
def pending (G : GraphAdjList n) (popped : List (Fin n)) (k : Fin n) : ℕ :=
 ∑ v with v ∉ popped, count k (G.adjlist v).fristedge

/-- Every vertex is after all that have edges into it, the last one first. -/
def Ordered (G : GraphAdjList n) : List (Fin n) → Prop
 | [] => True
 | k :: earlier => (∀ v cost, edge G v k cost → v ∈ earlier) ∧ Ordered G earlier

def Free (G : GraphAdjList n) (v : Fin n) : Prop :=
 ∀ u way length, Walk (edge G) u u way length → way ≠ [] → ¬ Reaches (edge G) u v

/-- A path over vertices that no cycle leads to, but for the last one, is too long for an `int`. -/
def TooLong (G : GraphAdjList n) : Prop :=
 ∃ x v k way length cost, Walk (edge G) x v way length ∧ Free G v ∧ edge G v k cost ∧
  intMax < length + cost

def Ints (G : GraphAdjList n) : Prop := ∀ v x cost, edge G v x cost → Fits cost

/-- What holds in the loop, with these edges of the vertex popped last still to visit. -/
structure Progress (G : GraphAdjList n) (popped : List (Fin n)) (rest : List (EdgeNode n))
 (s : Sorting n) : Prop where
 stk : s.stk = popped
 nodup : popped.Nodup
 ordered : Ordered G popped
 degree : ∀ k, s.in_ k = (pending G popped k + count k rest : ℕ)
 settled : ∀ k ∈ popped, s.in_ k = 0
 inner : ∀ k, k ∈ s.stk_inner ↔ k ∉ popped ∧ s.in_ k = 0
 inner_nodup : s.stk_inner.Nodup
 positive : ∀ v, 0 ≤ s.etv v
 atMost : ∀ v, s.etv v ≤ intMax
 way : ∀ v, ∃ x way, Walk (edge G) x v way (s.etv v)
 relaxed : ∀ v ∈ popped, ∀ p ∈ (G.adjlist v).fristedge,
  s.etv v + p.w ≤ s.etv p.adjvex ∨ popped.head? = some v ∧ p ∈ rest

theorem count_cons (k : Fin n) (p : EdgeNode n) (rest : List (EdgeNode n)) :
 count k (p :: rest) = count k rest + if p.adjvex = k then 1 else 0 := by
 simp only [count, countP_cons, decide_eq_true_eq]

theorem count_pos (among : p ∈ rest) : 0 < count p.adjvex rest :=
 countP_pos_iff.mpr ⟨p, among, decide_eq_true rfl⟩

theorem pending_cons (G : GraphAdjList n) (new : gettop ∉ popped) (k : Fin n) :
 pending G popped k = count k (G.adjlist gettop).fristedge + pending G (gettop :: popped) k := by
 have among : gettop ∈ Finset.univ.filter fun v => v ∉ popped :=
  Finset.mem_filter.mpr ⟨Finset.mem_univ gettop, new⟩
 have others : (Finset.univ.filter fun v => v ∉ gettop :: popped) =
  (Finset.univ.filter fun v => v ∉ popped).erase gettop := by
  ext v
  simp
 rw [pending, pending, others]
 exact (Finset.add_sum_erase _ _ among).symm

theorem mem_popped {cost : ℤ} (none : pending G popped k = 0) (into : edge G v k cost) :
 v ∈ popped := by
 by_contra other
 have zero := Finset.sum_eq_zero_iff.mp none v
  (Finset.mem_filter.mpr ⟨Finset.mem_univ v, other⟩)
 exact (count_pos into).ne' zero

def take (gettop : Fin n) (s : Sorting n) (p : EdgeNode n) : Sorting n :=
 let in_ := update s.in_ p.adjvex (s.in_ p.adjvex - 1)
 { s with
  in_ := in_
  stk_inner := if in_ p.adjvex = 0 then p.adjvex :: s.stk_inner else s.stk_inner
  etv := if s.etv gettop + p.w > s.etv p.adjvex then
   update s.etv p.adjvex (s.etv gettop + p.w) else s.etv }

theorem take_etv (gettop : Fin n) (s : Sorting n) (p : EdgeNode n) (v : Fin n) :
 (take gettop s p).etv v =
  if v = p.adjvex ∧ s.etv v < s.etv gettop + p.w then s.etv gettop + p.w else s.etv v := by
 change (if s.etv gettop + p.w > s.etv p.adjvex then
  update s.etv p.adjvex (s.etv gettop + p.w) else s.etv) v = _
 by_cases same : v = p.adjvex
 · subst same
   by_cases later : s.etv gettop + p.w > s.etv p.adjvex
   · simp_all
   · have other : ¬ (p.adjvex = p.adjvex ∧ s.etv p.adjvex < s.etv gettop + p.w) :=
      fun both => later both.2
     rw [if_neg later, if_neg other]
 · have other : ¬ (v = p.adjvex ∧ s.etv v < s.etv gettop + p.w) := fun both => same both.1
   rw [if_neg other]
   split
   · exact update_of_ne same _ _
   · rfl

theorem le_take_etv (gettop : Fin n) (s : Sorting n) (p : EdgeNode n) (v : Fin n) :
 s.etv v ≤ (take gettop s p).etv v := by
 rw [take_etv]
 split <;> omega

theorem take_stk_inner (gettop : Fin n) (s : Sorting n) (p : EdgeNode n) :
 (take gettop s p).stk_inner =
  if s.in_ p.adjvex = 1 then p.adjvex :: s.stk_inner else s.stk_inner := by
 have one : s.in_ p.adjvex - 1 = 0 ↔ s.in_ p.adjvex = 1 := by omega
 simp only [take, update_self, one]

theorem take_in (gettop : Fin n) (s : Sorting n) (p : EdgeNode n) (v : Fin n) :
 (take gettop s p).in_ v = s.in_ v - if p.adjvex = v then 1 else 0 := by
 by_cases same : p.adjvex = v
 · subst same
   rw [if_pos rfl]
   exact update_self ..
 · rw [if_neg same, sub_zero]
   exact update_of_ne (Ne.symm same) _ _

/-! ### The order -/

theorem Ordered.preds {later earlier : List (Fin n)} {cost : ℤ}
 (ordered : Ordered G (later ++ k :: earlier)) (into : edge G v k cost) : v ∈ earlier := by
 induction later with
 | nil => exact ordered.1 v cost into
 | cons x later ih => exact ih ordered.2

variable {way : List (Fin n)} {length : ℤ}

theorem Ordered.before {later earlier : List (Fin n)} (ordered : Ordered G (later ++ k :: earlier))
 (walk : Walk (edge G) v k way length) (some : way ≠ []) : v ∈ earlier := by
 generalize same : k = last at walk
 induction walk with
 | here v => exact absurd rfl some
 | @step v x last cost length way along walk ih =>
  subst same
  cases walk with
  | here => exact ordered.preds along
  | step along' walk =>
   have next := ih (cons_ne_nil _ _) rfl
   obtain ⟨front, back, parts⟩ := append_of_mem next
   rw [parts, ← cons_append, ← append_assoc] at ordered
   rw [parts]
   exact mem_append_right front (mem_cons_of_mem x (ordered.preds along))

variable {l : List (Fin n)}

theorem Ordered.not_cycle (ordered : Ordered G l) (apart : l.Nodup) (among : v ∈ l)
 (walk : Walk (edge G) v v way length) : way = [] := by
 by_contra some
 obtain ⟨later, earlier, parts⟩ := append_of_mem among
 rw [parts] at ordered apart
 exact (nodup_cons.mp (nodup_append.mp apart).2.1).1 (ordered.before walk some)

theorem Ordered.mem_of_reaches (ordered : Ordered G l) (among : v ∈ l)
 (reaches : Reaches (edge G) k v) : k ∈ l := by
 obtain ⟨way, length, walk⟩ := reaches
 cases walk with
 | here => exact among
 | step along walk =>
  obtain ⟨later, earlier, parts⟩ := append_of_mem among
  rw [parts] at ordered ⊢
  exact mem_append_right later (mem_cons_of_mem v
   (ordered.before (.step along walk) (cons_ne_nil _ _)))

theorem Ordered.free (ordered : Ordered G l) (apart : l.Nodup) (among : v ∈ l) :
 Free G v := fun _ _ _ walk some reaches =>
 some (ordered.not_cycle apart (ordered.mem_of_reaches among reaches) walk)

/-! ### One edge -/

section Edge

variable {earlier : List (Fin n)}

section

variable (progress : Progress G popped (p :: rest) s)
include progress

theorem Progress.target_new : p.adjvex ∉ popped := by
 intro old
 have zero := progress.settled p.adjvex old
 have degree := progress.degree p.adjvex
 have one := count_pos (mem_cons_self (a := p) (l := rest))
 omega

theorem Progress.target_not_inner : p.adjvex ∉ s.stk_inner := by
 intro inside
 have zero := ((progress.inner p.adjvex).mp inside).2
 have degree := progress.degree p.adjvex
 have one := count_pos (mem_cons_self (a := p) (l := rest))
 omega

theorem Progress.take_inner (k : Fin n) :
 k ∈ (take gettop s p).stk_inner ↔ k ∉ popped ∧ (take gettop s p).in_ k = 0 := by
 rw [take_stk_inner, take_in]
 by_cases same : p.adjvex = k
 · subst same
   have out := progress.target_not_inner
   have new := progress.target_new
   rw [if_pos rfl]
   split
   · rename_i one
     exact iff_of_true mem_cons_self ⟨new, by omega⟩
   · rename_i other
     exact iff_of_false out fun both => other (by omega)
 · rw [if_neg same, sub_zero, ← progress.inner k]
   split
   · grind
   · rfl

end

theorem Progress.take_way (progress : Progress G (gettop :: earlier) (p :: rest) s)
 (along : p ∈ (G.adjlist gettop).fristedge) :
 ∃ x way, Walk (edge G) x p.adjvex way (s.etv gettop + p.w) := by
 obtain ⟨x, way, walk⟩ := progress.way gettop
 have last : Walk (edge G) gettop p.adjvex [p.adjvex] (p.w + 0) := .step along (.here _)
 rw [add_zero] at last
 exact ⟨x, _, walk.append last⟩

theorem Progress.take (progress : Progress G (gettop :: earlier) (p :: rest) s)
 (along : p ∈ (G.adjlist gettop).fristedge) (fits : Fits (s.etv gettop + p.w)) :
 Progress G (gettop :: earlier) rest (take gettop s p) where
 stk := progress.stk
 nodup := progress.nodup
 ordered := progress.ordered
 degree k := by
  have degree := progress.degree k
  rw [count_cons] at degree
  rw [take_in]
  split at degree <;> omega
 settled k old := by
  have other : p.adjvex ≠ k := fun same => progress.target_new (same ▸ old)
  rw [take_in, if_neg other, sub_zero]
  exact progress.settled k old
 inner := progress.take_inner
 inner_nodup := by
  rw [take_stk_inner]
  split
  · exact nodup_cons.mpr ⟨progress.target_not_inner, progress.inner_nodup⟩
  · exact progress.inner_nodup
 positive v := le_trans (progress.positive v) (le_take_etv gettop s p v)
 atMost v := by
  rw [take_etv]
  split
  · exact fits.2
  · exact progress.atMost v
 way v := by
  rw [take_etv]
  split
  · rename_i later
    rw [later.1]
    exact progress.take_way along
  · exact progress.way v
 relaxed v old q out := by
  have settled : v ≠ p.adjvex := fun same => progress.target_new (same ▸ old)
  have kept : (TopologicalSort.take gettop s p).etv v = s.etv v := by
   rw [take_etv, if_neg fun both => settled both.1]
  have grown := le_take_etv gettop s p q.adjvex
  rcases progress.relaxed v old q out with done | ⟨top, left⟩
  · left
    omega
  · rcases mem_cons.mp left with rfl | later
    · left
      rw [head?_cons, Option.some.injEq] at top
      subst top
      rw [kept, take_etv]
      split <;> omega
    · exact .inr ⟨top, later⟩

theorem visit_outcome {allowed : Fault → Prop} (allows : TooLong G → allowed .overflow)
 (ints : Ints G)
 (progress : Progress G (gettop :: earlier) (p :: rest) s)
 (along : p ∈ (G.adjlist gettop).fristedge) :
 Outcome allowed (visit gettop s p) (Progress G (gettop :: earlier) rest) := by
 obtain ⟨x, way, walk⟩ := progress.way gettop
 have free := progress.ordered.free progress.nodup mem_cons_self
 have start := progress.positive gettop
 have weight := ints gettop p.adjvex p.w along
 have long : ¬ Fits (s.etv gettop + p.w) → intMax < s.etv gettop + p.w := by
  unfold Fits at weight ⊢
  omega
 apply (toInt_outcome fun outside => allows
  ⟨x, gettop, p.adjvex, way, _, p.w, walk, free, along, long outside⟩).map
 rintro _ ⟨rfl, fits⟩
 exact progress.take along fits

end Edge

/-! ### All edges -/

theorem Progress.pop {stk_inner : List (Fin n)} (progress : Progress G popped [] s)
 (top : s.stk_inner = gettop :: stk_inner) :
 Progress G (gettop :: popped) (G.adjlist gettop).fristedge
  { s with stk_inner := stk_inner, stk := gettop :: s.stk } := by
 have inside : gettop ∈ s.stk_inner := top ▸ mem_cons_self
 have apart := progress.inner_nodup
 rw [top, nodup_cons] at apart
 obtain ⟨new, zero⟩ := (progress.inner gettop).mp inside
 constructor
 case stk => exact congrArg (gettop :: ·) progress.stk
 case nodup => exact nodup_cons.mpr ⟨new, progress.nodup⟩
 case ordered =>
  refine ⟨fun v cost into => ?_, progress.ordered⟩
  have degree := progress.degree gettop
  exact mem_popped (by omega) into
 case degree =>
  intro k
  have degree := progress.degree k
  have none : count k [] = 0 := rfl
  rw [pending_cons G new, none] at degree
  change s.in_ k = _
  omega
 case settled =>
  intro k old
  rcases mem_cons.mp old with rfl | before
  · exact zero
  · exact progress.settled k before
 case inner =>
  intro k
  have before := progress.inner k
  rw [top, mem_cons] at before
  rw [mem_cons, not_or, and_assoc, ← before]
  constructor
  · grind
  · rintro ⟨other, same | among⟩
    · exact absurd same other
    · exact among
 case inner_nodup => exact apart.2
 case positive => exact progress.positive
 case atMost => exact progress.atMost
 case way => exact progress.way
 case relaxed =>
  intro v old p out
  rcases mem_cons.mp old with rfl | before
  · exact .inr ⟨rfl, out⟩
  · rcases progress.relaxed v before p out with done | left
    · exact .inl done
    · exact absurd left.2 not_mem_nil

theorem edges_outcome {allowed : Fault → Prop} (allows : TooLong G → allowed .overflow)
 (ints : Ints G)
 (progress : Progress G (gettop :: popped) (G.adjlist gettop).fristedge s) :
 Outcome allowed ((G.adjlist gettop).fristedge.foldlM (visit gettop) s)
  (Progress G (gettop :: popped) []) := by
 have outcome : Outcome allowed ((G.adjlist gettop).fristedge.foldlM (visit gettop) s) fun next =>
  ∀ rest, (G.adjlist gettop).fristedge = (G.adjlist gettop).fristedge ++ rest →
   Progress G (gettop :: popped) rest next := by
  apply Outcome.foldlM fun done next => ∀ rest, (G.adjlist gettop).fristedge = done ++ rest →
   Progress G (gettop :: popped) rest next
  · simp_all
  · intro done p rest s parts before
    have along : p ∈ (G.adjlist gettop).fristedge := by
     rw [parts]
     exact mem_append_right done mem_cons_self
    apply (visit_outcome allows ints (before (p :: rest) parts) along).mono
    intro next after rest' parts'
    have same : rest = rest' := by
     rw [parts, append_assoc, append_cancel_left_eq] at parts'
     exact (cons.inj parts').2
    exact same ▸ after
 simp_all

theorem sortLoop_outcome {allowed : Fault → Prop} (allows : TooLong G → allowed .overflow)
 (ints : Ints G) (rounds : ℕ) (progress : Progress G popped [] s)
 (enough : n < popped.length + rounds) :
 Outcome allowed (sortLoop G rounds s) fun next =>
  Progress G next.stk [] next ∧ next.stk_inner = [] := by
 induction rounds generalizing popped s with
 | zero =>
  have fewer := progress.nodup.length_le_card
  rw [Fintype.card_fin] at fewer
  omega
 | succ rounds ih =>
  rw [sortLoop]
  split
  · rename_i empty
    exact Outcome.returned ⟨progress.stk ▸ progress, empty⟩
  · rename_i gettop stk_inner top
    apply (edges_outcome allows ints (progress.pop top)).bind
    intro next progress
    exact ih progress (by rw [length_cons]; omega)

theorem foldl_push (items stack : List (Fin n)) (G : GraphAdjList n) :
 items.foldl (fun stk_inner i => if (G.adjlist i).in_ = 0 then i :: stk_inner else stk_inner)
  stack =
  (items.filter fun i => (G.adjlist i).in_ = 0).reverse ++ stack := by
 induction items generalizing stack with
 | nil => rfl
 | cons i items ih =>
  grind

theorem progress_initial (degrees : InDegrees G) : Progress G [] [] (initial .new G) := by
 have inner : (initial .new G).stk_inner =
  ((finRange n).filter fun i => (G.adjlist i).in_ = 0).reverse ++ [] :=
  foldl_push (finRange n) [] G
 rw [append_nil] at inner
 constructor
 case stk => rfl
 case nodup => exact nodup_nil
 case ordered => trivial
 case degree =>
  intro k
  have all : (Finset.univ.filter fun v : Fin n => v ∉ []) = Finset.univ :=
   Finset.filter_true_of_mem fun v _ => not_mem_nil
  rw [pending, all]
  exact degrees k
 case settled => exact fun k old => absurd old not_mem_nil
 case inner =>
  intro k
  rw [inner, mem_reverse, mem_filter, decide_eq_true_eq]
  exact and_congr_left fun _ => iff_of_true (mem_finRange k) not_mem_nil
 case inner_nodup =>
  rw [inner]
  exact nodup_reverse.mpr ((nodup_finRange n).filter _)
 case positive => exact fun v => le_refl 0
 case atMost => exact fun v => show (0 : ℤ) ≤ intMax by decide
 case way =>
  intro v
  exact ⟨v, [], .here v⟩
 case relaxed => exact fun v old => absurd old not_mem_nil

/-! ### The sorted vertices -/

/-- What the sort comes to: the vertices popped, the last one first, and the times. -/
structure Sorted (G : GraphAdjList n) (c : CritialPath n) : Prop where
 nodup : c.stk.Nodup
 ordered : Ordered G c.stk
 positive : ∀ v, 0 ≤ c.etv v
 atMost : ∀ v, c.etv v ≤ intMax
 way : ∀ v, ∃ x way, Walk (edge G) x v way (c.etv v)
 relaxed : ∀ v ∈ c.stk, ∀ x cost, edge G v x cost → c.etv v + cost ≤ c.etv x
 closed : ∀ v, v ∉ c.stk → ∃ u cost, u ∉ c.stk ∧ edge G u v cost

theorem Progress.sorted (progress : Progress G s.stk [] s) (empty : s.stk_inner = [])
 (c : CritialPath n) : Sorted G { c with etv := s.etv, stk := s.stk } where
 nodup := progress.nodup
 ordered := progress.ordered
 positive := progress.positive
 atMost := progress.atMost
 way := progress.way
 relaxed v old x cost along :=
  (progress.relaxed v old ⟨x, cost⟩ along).resolve_right fun left => nomatch left.2
 closed v out := by
  have held : s.in_ v ≠ 0 := fun zero => by
   have inside := (progress.inner v).mpr ⟨out, zero⟩
   simp_all
  have degree := progress.degree v
  have none : count v [] = 0 := rfl
  have some : pending G s.stk v ≠ 0 := by omega
  obtain ⟨u, among, into⟩ := Finset.exists_ne_zero_of_sum_ne_zero some
  obtain ⟨p, along, same⟩ := countP_pos_iff.mp (Nat.pos_of_ne_zero into)
  rw [decide_eq_true_eq] at same
  subst same
  exact ⟨u, p.w, (Finset.mem_filter.mp among).2, along⟩

variable {rounds : ℕ}

theorem topologicalSort_outcome (degrees : InDegrees G) (ints : Ints G) (enough : n < rounds) :
 Outcome (fun fault => fault = .overflow ∧ TooLong G) (topologicalSort rounds .new G)
  fun result => result.1 = decide (result.2.stk.length = n) ∧ Sorted G result.2 ∧
   result.2.ete = [] ∧ result.2.lte = [] := by
 have allows : TooLong G → Fault.overflow = .overflow ∧ TooLong G := fun long => ⟨rfl, long⟩
 apply (sortLoop_outcome allows ints rounds (progress_initial degrees) (by simpa using enough)).map
 rintro s ⟨progress, empty⟩
 exact ⟨rfl, progress.sorted empty .new, rfl, rfl⟩

variable {c : CritialPath n}

section

variable (sorted : Sorted G c)
include sorted

theorem Sorted.length_eq_iff : c.stk.length = n ↔ ∀ v, v ∈ c.stk := by
 have size := toFinset_card_of_nodup sorted.nodup
 constructor
 · intro full v
   have all := Finset.eq_univ_of_card c.stk.toFinset (by rw [size, full, Fintype.card_fin])
   exact mem_toFinset.mp (all ▸ Finset.mem_univ v)
 · intro every
   have all : c.stk.toFinset = Finset.univ :=
    Finset.eq_univ_of_forall fun v => mem_toFinset.mpr (every v)
   simp_all

theorem Sorted.mem_iff_free : v ∈ c.stk ↔ Free G v := by
 refine ⟨sorted.ordered.free sorted.nodup, fun free => ?_⟩
 have acyclic : Acyclic fun x y cost => edge G x y cost ∧ Reaches (edge G) y v := by
  intro u way length walk
  by_contra some
  have onward : Reaches (edge G) u v := by
   cases walk with
   | here => exact absurd rfl some
   | step along walk =>
    obtain ⟨back, total, after⟩ := along.2
    exact ⟨_, _, .step along.1 after⟩
  exact free u way length (walk.mono fun _ _ _ along => along.1) some onward
 have inside : ∀ u, Reaches (edge G) u v → u ∈ c.stk := by
  intro u
  induction u using acyclic.induction with
  | step u before =>
   intro reaches
   by_contra out
   obtain ⟨x, cost, out', along⟩ := sorted.closed u out
   obtain ⟨way, length, walk⟩ := reaches
   exact out' (before x cost ⟨along, way, length, walk⟩ ⟨_, _, .step along walk⟩)
 exact inside v ⟨[], 0, .here v⟩

theorem Sorted.length_eq_iff_acyclic : c.stk.length = n ↔ Acyclic (edge G) := by
 rw [sorted.length_eq_iff]
 constructor
 · intro every v way length walk
   by_contra some
   exact sorted.mem_iff_free.mp (every v) v way length walk some ⟨[], 0, .here v⟩
 · intro acyclic v
   exact sorted.mem_iff_free.mpr fun u way length walk some =>
    absurd (acyclic u way length walk) some

theorem Sorted.add_le (walk : Walk (edge G) v k way length) (among : k ∈ c.stk) :
 c.etv v + length ≤ c.etv k := by
 induction walk with
 | here v => exact le_of_eq (add_zero _)
 | @step v x k cost length way along walk ih =>
  have inside := sorted.ordered.mem_of_reaches among ⟨_, _, .step along walk⟩
  have first := sorted.relaxed v inside x cost along
  have further := ih among
  omega

theorem Sorted.not_tooLong : ¬ TooLong G := by
 rintro ⟨x, v, k, way, length, cost, walk, free, along, long⟩
 have among := sorted.mem_iff_free.mpr free
 have before := sorted.add_le walk among
 have last := sorted.relaxed v among k cost along
 have first := sorted.positive x
 have atMost := sorted.atMost k
 omega

end

theorem topologicalSort_of_cycle (degrees : InDegrees G) (ints : Ints G) (enough : n < rounds)
 (cycle : ¬ Acyclic (edge G)) :
 (∃ c, topologicalSort rounds .new G = .ok (false, c)) ↔ ¬ TooLong G := by
 have outcome := topologicalSort_outcome degrees ints enough
 constructor
 · rintro ⟨c, returned⟩
   exact (outcome.2 _ returned).2.1.not_tooLong
 · intro short
   obtain ⟨⟨result, c⟩, returned⟩ := outcome.exists_ok fun fault both => short both.2
   obtain ⟨same, sorted, _⟩ := outcome.2 _ returned
   have notFull : decide (c.stk.length = n) = false :=
    decide_eq_false fun full => cycle (sorted.length_eq_iff_acyclic.mp full)
   simp_all

theorem topologicalSort_of_acyclic (degrees : InDegrees G) (ints : Ints G) (enough : n < rounds)
 (acyclic : Acyclic (edge G)) (short : ¬ TooLong G) :
 ∃ c, topologicalSort rounds .new G = .ok (true, c) ∧ Sorted G c ∧ c.ete = [] ∧ c.lte = [] := by
 have outcome := topologicalSort_outcome degrees ints enough
 obtain ⟨⟨result, c⟩, returned⟩ := outcome.exists_ok fun fault both => short both.2
 obtain ⟨same, sorted, empty⟩ := outcome.2 _ returned
 have full : decide (c.stk.length = n) = true :=
  decide_eq_true (sorted.length_eq_iff_acyclic.mpr acyclic)
 simp_all

/-! ### Activity networks -/

/-- A graph without cycles, with positive weights, one source and one sink. -/
structure Network (G : GraphAdjList n) (source sink : Fin n) : Prop where
 acyclic : Acyclic (edge G)
 positive : ∀ v x cost, edge G v x cost → 0 < cost
 source : ∀ v, (∀ u cost, ¬ edge G u v cost) ↔ v = source
 sink : ∀ v, (∀ x cost, ¬ edge G v x cost) ↔ v = sink

variable {source sink : Fin n}

variable (network : Network G source sink)
include network

theorem Network.reach (v : Fin n) : Reaches (edge G) source v := by
 induction v using network.acyclic.induction with
 | step v before =>
  by_cases first : ∀ u cost, ¬ edge G u v cost
  · rw [(network.source v).mp first]
    exact ⟨[], 0, .here source⟩
  · push Not at first
    obtain ⟨u, cost, along⟩ := first
    obtain ⟨way, length, walk⟩ := before u cost along
    exact ⟨_, _, walk.append (.step along (.here v))⟩

theorem Network.reach_sink (v : Fin n) : Reaches (edge G) v sink := by
 induction v using network.acyclic.induction_back with
 | step v after =>
  by_cases last : ∀ x cost, ¬ edge G v x cost
  · rw [(network.sink v).mp last]
    exact ⟨[], 0, .here sink⟩
  · push Not at last
    obtain ⟨x, cost, along⟩ := last
    obtain ⟨way, length, walk⟩ := after x cost along
    exact ⟨_, _, .step along walk⟩

theorem Network.nonneg (walk : Walk (edge G) v k way length) : 0 ≤ length :=
 walk.nonneg fun v x cost along => le_of_lt (network.positive v x cost along)

theorem Network.longest (sorted : Sorted G c) (v : Fin n) :
 Longest (edge G) source v (c.etv v) := by
 have every := sorted.length_eq_iff.mp (sorted.length_eq_iff_acyclic.mpr network.acyclic)
 have first := sorted.positive source
 have atMost : ∀ way length, Walk (edge G) source v way length → length ≤ c.etv v := by
  intro way length walk
  have grows := sorted.add_le walk (every v)
  omega
 refine ⟨?_, atMost⟩
 obtain ⟨x, way, walk⟩ := sorted.way v
 obtain ⟨front, length, reach⟩ := network.reach x
 have positive := network.nonneg reach
 have whole := reach.append walk
 have bound := atMost _ _ whole
 have zero : length = 0 := by omega
 grind

theorem Network.fits (small : ∀ way length, Walk (edge G) source sink way length → length ≤ intMax)
 (walk : Walk (edge G) v k way length) : Fits length := by
 obtain ⟨_, front, before⟩ := network.reach v
 obtain ⟨_, back, after⟩ := network.reach_sink k
 have atMost := small _ _ ((before.append walk).append after)
 have first := network.nonneg before
 have middle := network.nonneg walk
 have last := network.nonneg after
 unfold Fits
 omega

theorem Network.not_tooLong
 (small : ∀ way length, Walk (edge G) source sink way length → length ≤ intMax) : ¬ TooLong G := by
 rintro ⟨_, _, _, _, _, _, walk, _, along, long⟩
 have fits := network.fits small (walk.append (.step along (.here _)))
 unfold Fits at fits
 omega

end MyNotes.Algorithms.TopologicalSort
