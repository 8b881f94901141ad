/-
The two union-find structures of the search notes: by rank, and by size.

The elements are below `n`, and so are the parents, so a vector is a function on
them.  `find` calls itself on the parent; one call for each element is enough.
-/

import MyNotes.Library.ParentForest
import Mathlib.Data.Nat.Log

namespace MyNotes.Algorithms

open Library.ParentForest Relation Function

variable {n : ℕ}

/-- `find` of both classes: the parents after it, and what it returns. -/
def findFrom : ℕ → (Fin n → Fin n) → Fin n → Option ((Fin n → Fin n) × Fin n)
 | 0, _, _ => none
 | calls + 1, parent, x =>
  if x ≠ parent x then
   (findFrom calls parent (parent x)).map fun (parent, root) =>
    let parent := update parent x root
    (parent, parent x)
  else some (parent, parent x)

/-! ### By rank -/

structure Djset (n : ℕ) where
 parent : Fin n → Fin n
 rank : Fin n → ℕ
 size : ℤ

namespace Djset

def new (n : ℕ) : Djset n := ⟨id, fun _ => 0, n⟩

def find (self : Djset n) (x : Fin n) : Option (Djset n × Fin n) :=
 (findFrom n self.parent x).map fun (parent, root) => ({ self with parent := parent }, root)

def merge (self : Djset n) (x y : Fin n) : Option (Djset n × Bool) :=
 (self.find x).bind fun (self, rootx) =>
  (self.find y).map fun (self, rooty) =>
   if rootx = rooty then (self, false)
   else
    let (rootx, rooty) :=
     if self.rank rootx < self.rank rooty then (rooty, rootx) else (rootx, rooty)
    ({ parent := update self.parent rooty rootx
       rank := if self.rank rootx = self.rank rooty then
        update self.rank rootx (self.rank rootx + 1)
        else self.rank
       size := self.size - 1 }, true)

def getSize (self : Djset n) : ℤ := self.size

inductive Request (n : ℕ) where
 | merge (x y : Fin n)
 | find (x : Fin n)
 | getSize

end Djset

inductive Reply (n : ℕ) where
 | flag (value : Bool)
 | element (value : Fin n)
 | number (value : ℤ)
 | nothing

def Djset.call (self : Djset n) : Djset.Request n → Option (Djset n × Reply n)
 | .merge x y => (self.merge x y).map fun (self, done) => (self, .flag done)
 | .find x => (self.find x).map fun (self, root) => (self, .element root)
 | .getSize => some (self, .number self.getSize)

def Djset.run : Djset n → List (Djset.Request n) → Option (Djset n)
 | self, [] => some self
 | self, first :: rest => (self.call first).bind fun (self, _) => self.run rest

/-! ### By size -/

structure UF (n : ℕ) where
 count : ℤ
 parent : Fin n → Fin n
 size : Fin n → ℕ

namespace UF

def new (n : ℕ) : UF n := ⟨n, id, fun _ => 1⟩

def find (self : UF n) (x : Fin n) : Option (UF n × Fin n) :=
 (findFrom n self.parent x).map fun (parent, root) => ({ self with parent := parent }, root)

def merge (self : UF n) (p q : Fin n) : Option (UF n) :=
 (self.find p).bind fun (self, rootP) =>
  (self.find q).map fun (self, rootQ) =>
   if rootP = rootQ then self
   else if self.size rootP < self.size rootQ then
    { count := self.count - 1
      parent := update self.parent rootP rootQ
      size := update self.size rootQ (self.size rootQ + self.size rootP) }
   else
    { count := self.count - 1
      parent := update self.parent rootQ rootP
      size := update self.size rootP (self.size rootP + self.size rootQ) }

def connected (self : UF n) (p q : Fin n) : Option (UF n × Bool) :=
 (self.find p).bind fun (self, rootP) =>
  (self.find q).map fun (self, rootQ) => (self, rootP == rootQ)

def getCount (self : UF n) : ℤ := self.count

inductive Request (n : ℕ) where
 | merge (p q : Fin n)
 | find (x : Fin n)
 | connected (p q : Fin n)
 | getCount

def call (self : UF n) : Request n → Option (UF n × Reply n)
 | .merge p q => (self.merge p q).map fun self => (self, .nothing)
 | .find x => (self.find x).map fun (self, root) => (self, .element root)
 | .connected p q => (self.connected p q).map fun (self, same) => (self, .flag same)
 | .getCount => some (self, .number self.getCount)

def run : UF n → List (Request n) → Option (UF n)
 | self, [] => some self
 | self, first :: rest => (self.call first).bind fun (self, _) => self.run rest

end UF

/-! ### What the calls are for -/

def Pairs (merged : List (Fin n × Fin n)) : Fin n → Fin n → Prop := fun x y => (x, y) ∈ merged

/-- The reflexive, symmetric and transitive closure of the pairs. -/
def Related (merged : List (Fin n × Fin n)) : Fin n → Fin n → Prop := EqvGen (Pairs merged)

noncomputable def classes (merged : List (Fin n × Fin n)) : ℕ :=
 Nat.card (Quotient (EqvGen.setoid (Pairs merged)))

noncomputable def classSize (merged : List (Fin n × Fin n)) (x : Fin n) : ℕ :=
 {y | Related merged y x}.ncard

def RootOf (parent : Fin n → Fin n) (x r : Fin n) : Prop := parent r = r ∧ ∃ k, parent^[k] x = r

/-- The parents and the reported number are those of the classes. -/
structure Partitions (parent : Fin n → Fin n) (number : ℤ) (merged : List (Fin n × Fin n)) :
 Prop where
 rooted : ∀ x, ∃ r, RootOf parent x r
 related : ∀ x y, (∃ r, RootOf parent x r ∧ RootOf parent y r) ↔ Related merged x y
 number : number = classes merged

/-- The rank of a root bounds the height of its tree, and its class is large enough for it. -/
def RankBounds (self : Djset n) (merged : List (Fin n × Fin n)) : Prop :=
 ∀ r, self.parent r = r →
  (∀ x, RootOf self.parent x r → ∃ k ≤ self.rank r, self.parent^[k] x = r) ∧
   self.rank r ≤ Nat.log 2 (classSize merged r)

def SizesRight (self : UF n) (merged : List (Fin n × Fin n)) : Prop :=
 ∀ r, self.parent r = r → self.size r = classSize merged r

def Djset.mergedAfter : List (Fin n × Fin n) → List (Djset.Request n) → List (Fin n × Fin n)
 | merged, [] => merged
 | merged, .merge x y :: rest => mergedAfter ((x, y) :: merged) rest
 | merged, _ :: rest => mergedAfter merged rest

def UF.mergedAfter : List (Fin n × Fin n) → List (UF.Request n) → List (Fin n × Fin n)
 | merged, [] => merged
 | merged, .merge p q :: rest => mergedAfter ((p, q) :: merged) rest
 | merged, _ :: rest => mergedAfter merged rest

/-- What a call has to return after the pairs were merged. -/
def Djset.Right (merged : List (Fin n × Fin n)) (next : Djset n) :
 Djset.Request n → Reply n → Prop
 | .merge x y, .flag done => done = true ↔ ¬ Related merged x y
 | .find x, .element r => RootOf next.parent x r
 | .getSize, .number number => number = classes merged
 | _, _ => False

def UF.Right (merged : List (Fin n × Fin n)) (next : UF n) : UF.Request n → Reply n → Prop
 | .merge _ _, .nothing => True
 | .find x, .element r => RootOf next.parent x r
 | .connected p q, .flag same => same = true ↔ Related merged p q
 | .getCount, .number number => number = classes merged
 | _, _ => False

/-! ### One `find` -/

variable {parent root : Fin n → Fin n} {measure : Fin n → ℕ}

theorem findFrom_spec (forest : Forest parent root measure) (calls : ℕ) (x : Fin n)
 (enough : (Forest.above measure x).card < calls) :
 ∃ after, findFrom calls parent x = some (after, root x) ∧ Forest after root measure := by
 induction calls generalizing x with
 | zero => omega
 | succ calls ih =>
  unfold findFrom
  by_cases top : parent x = x
  · rw [if_neg (not_not.mpr top.symm), top]
    refine ⟨parent, ?_, forest⟩
    rw [forest.root_self x top]
  · have fewer := Forest.card_above_lt (forest.increases x top)
    obtain ⟨after, found, kept⟩ := ih (parent x) (by omega)
    rw [forest.root_parent] at found
    rw [if_pos (Ne.symm top), found]
    refine ⟨_, ?_, kept.compress x⟩
    simp

theorem findFrom_total (forest : Forest parent root measure) (x : Fin n) :
 ∃ after, findFrom n parent x = some (after, root x) ∧ Forest after root measure :=
 findFrom_spec forest n x ((Forest.card_above_lt_card x).trans_eq (Fintype.card_fin n))

/-! ### The partition -/

variable {merged : List (Fin n × Fin n)}

theorem withPair_pairs (merged : List (Fin n × Fin n)) (x y : Fin n) :
 withPair (Pairs merged) x y = Pairs ((x, y) :: merged) := by
 funext z w
 unfold withPair Pairs
 rw [List.mem_cons, Prod.mk.injEq]

theorem partitions_of_forest (forest : Forest parent root measure)
 (represents : Represents root (Pairs merged)) {number : ℤ}
 (count : number = (roots root).card) : Partitions parent number merged where
 rooted x := ⟨root x, forest.root_eq_iff.mp rfl⟩
 related x y := by
  unfold Related
  rw [← represents x y]
  constructor
  · intro ⟨r, first, second⟩
    exact (forest.root_eq_iff.mpr first).trans (forest.root_eq_iff.mpr second).symm
  · intro same
    exact ⟨root x, forest.root_eq_iff.mp rfl, forest.root_eq_iff.mp same.symm⟩
 number := by
  unfold classes
  rw [count, represents.card_classes forest.root_root]

theorem classSize_root (represents : Represents root (Pairs merged)) {r : Fin n}
 (top : root r = r) : classSize merged r = (tree root r).card :=
 represents.ncard_class top

/-! ### By rank -/

namespace Djset

structure Sound (state : Djset n) (root : Fin n → Fin n) (merged : List (Fin n × Fin n)) :
 Prop where
 forest : Forest state.parent root state.rank
 represents : Represents root (Pairs merged)
 size : state.size = (roots root).card
 rank : ∀ r, root r = r → 2 ^ state.rank r ≤ (tree root r).card

variable {self : Djset n}

theorem new_sound (n : ℕ) : Sound (new n) id [] where
 forest := .initial _
 represents := by
  have initial : Represents (id : Fin n → Fin n) fun _ _ => False := .initial
  convert initial
  exact iff_of_false List.not_mem_nil id
 size := by
  rw [card_roots_initial, Fintype.card_fin]
  rfl
 rank r _ := by
  rw [card_tree_initial]
  exact Nat.le_refl 1

section

variable (sound : Sound self root merged)
include sound

theorem find_sound (x : Fin n) :
 ∃ after, self.find x = some (after, root x) ∧ Sound after root merged := by
 obtain ⟨parent, found, forest⟩ := findFrom_total sound.forest x
 unfold find
 rw [found]
 exact ⟨{ self with parent := parent }, rfl, forest, sound.represents, sound.size, sound.rank⟩

theorem link_sound {x y a b : Fin n} (ends : (a = root x ∧ b = root y) ∨ (a = root y ∧ b = root x))
 (different : a ≠ b) (le : self.rank b ≤ self.rank a) :
 Sound
  { parent := update self.parent b a
    rank := if self.rank a = self.rank b then
     update self.rank a (self.rank a + 1)
     else self.rank
    size := self.size - 1 } (Forest.joined root a b) ((x, y) :: merged) := by
 have tops : root a = a ∧ root b = b := by
  rcases ends with ⟨isA, isB⟩ | ⟨isA, isB⟩ <;> rw [isA, isB] <;>
   exact ⟨sound.forest.root_root _, sound.forest.root_root _⟩
 obtain ⟨top, other⟩ := tops
 have ranks : ∀ z, (if self.rank a = self.rank b then
  update self.rank a (self.rank a + 1) else self.rank) z =
   if z = a ∧ self.rank a = self.rank b then self.rank a + 1 else self.rank z := by
  intro z
  split
  · rename_i equal
    rw [update_apply]
    exact if_congr (by rw [and_iff_left equal]) rfl rfl
  · simp_all
 constructor
 · refine sound.forest.link top other different ?_ ?_ ?_
   · simp_all
   · grind
   · dsimp only
     rw [ranks]
     split
     · omega
     · rename_i unequal
       omega
 · rw [← withPair_pairs]
   exact sound.represents.join ends
 · have counted := card_roots_joined top other different
   rw [sound.size, ← counted]
   push_cast
   omega
 · intro r own
   dsimp only
   rw [ranks]
   have isRoot : root r = r ∧ r ≠ b := by
    have member := mem_roots.mpr own
    rw [roots_joined top different, Finset.mem_erase, mem_roots] at member
    exact ⟨member.2, member.1⟩
   by_cases atTop : r = a
   · rw [atTop, card_tree_joined different]
     have first := sound.rank a top
     have second := sound.rank b other
     split
     · grind
     · omega
   · rw [if_neg fun both => atTop both.1, tree_joined_of_ne atTop isRoot.2]
     exact sound.rank r isRoot.1

theorem merge_sound (x y : Fin n) :
 ∃ after done newRoot, self.merge x y = some (after, done) ∧
  Sound after newRoot ((x, y) :: merged) ∧ (done = true ↔ root x ≠ root y) := by
 obtain ⟨first, foundX, firstSound⟩ := find_sound sound x
 obtain ⟨second, foundY, secondSound⟩ := find_sound firstSound y
 unfold merge
 rw [foundX, Option.bind_some]
 dsimp only
 rw [foundY, Option.map_some]
 by_cases same : root x = root y
 · rw [if_pos same]
   refine ⟨second, false, root, rfl, ⟨secondSound.forest, ?_, secondSound.size,
    secondSound.rank⟩, iff_of_false Bool.false_ne_true (not_not.mpr same)⟩
   rw [← withPair_pairs]
   exact secondSound.represents.known same
 · rw [if_neg same]
   by_cases less : second.rank (root x) < second.rank (root y)
   · rw [if_pos less]
     exact ⟨_, true, _, rfl, link_sound secondSound (Or.inr ⟨rfl, rfl⟩) (Ne.symm same) less.le,
      iff_of_true rfl same⟩
   · rw [if_neg less]
     exact ⟨_, true, _, rfl, link_sound secondSound (Or.inl ⟨rfl, rfl⟩) same (not_lt.mp less),
      iff_of_true rfl same⟩

theorem Sound.rankBounds : RankBounds self merged := by
 intro r own
 have top := sound.forest.root_self r own
 constructor
 · intro x below
   have isRoot := sound.forest.root_eq_iff.mpr below
   obtain ⟨k, walk, bound⟩ := sound.forest.exists_walk x
   rw [isRoot] at walk bound
   exact ⟨k, by omega, walk⟩
 · rw [classSize_root sound.represents top]
   exact Nat.le_log_of_pow_le (by omega) (sound.rank r top)

theorem Sound.partitions : Partitions self.parent self.size merged :=
 partitions_of_forest sound.forest sound.represents sound.size

theorem call_sound (request : Request n) :
 ∃ next reply newRoot, self.call request = some (next, reply) ∧
  Sound next newRoot (mergedAfter merged [request]) ∧ Right merged next request reply := by
 cases request with
 | merge x y =>
  obtain ⟨next, done, newRoot, called, kept, answer⟩ := merge_sound sound x y
  refine ⟨next, .flag done, newRoot, ?_, kept, ?_⟩
  · dsimp only [call]
    rw [called]
    rfl
  · exact answer.trans (sound.represents x y).not
 | find x =>
  obtain ⟨next, found, kept⟩ := find_sound sound x
  refine ⟨next, .element (root x), root, ?_, kept, kept.forest.root_eq_iff.mp rfl⟩
  dsimp only [call]
  rw [found]
  rfl
 | getSize => exact ⟨self, _, root, rfl, sound, sound.partitions.number⟩

end

theorem mergedAfter_cons (merged : List (Fin n × Fin n)) (first : Request n)
 (rest : List (Request n)) :
 mergedAfter merged (first :: rest) = mergedAfter (mergedAfter merged [first]) rest := by
 cases first <;> rfl

theorem run_sound (sound : Sound self root merged) (requests : List (Request n)) :
 ∃ final newRoot, self.run requests = some final ∧
  Sound final newRoot (mergedAfter merged requests) := by
 induction requests generalizing self root merged with
 | nil => exact ⟨self, root, rfl, sound⟩
 | cons first rest ih =>
  obtain ⟨next, reply, newRoot, called, kept, -⟩ := call_sound sound first
  unfold run
  rw [called, mergedAfter_cons]
  exact ih kept

end Djset

/-! ### By size -/

namespace UF

structure Sound (state : UF n) (root : Fin n → Fin n) (merged : List (Fin n × Fin n)) :
 Prop where
 forest : Forest state.parent root state.size
 represents : Represents root (Pairs merged)
 count : state.count = (roots root).card
 size : ∀ r, root r = r → state.size r = (tree root r).card

variable {self : UF n}

theorem new_sound (n : ℕ) : Sound (new n) id [] where
 forest := .initial _
 represents := (Djset.new_sound n).represents
 count := (Djset.new_sound n).size
 size r _ := (card_tree_initial r).symm

section

variable (sound : Sound self root merged)
include sound

theorem find_sound (x : Fin n) :
 ∃ after, self.find x = some (after, root x) ∧ Sound after root merged := by
 obtain ⟨parent, found, forest⟩ := findFrom_total sound.forest x
 unfold find
 rw [found]
 exact ⟨{ self with parent := parent }, rfl, forest, sound.represents, sound.count, sound.size⟩

theorem link_sound {x y a b : Fin n} (ends : (a = root x ∧ b = root y) ∨ (a = root y ∧ b = root x))
 (different : a ≠ b) :
 Sound
  { count := self.count - 1
    parent := update self.parent b a
    size := update self.size a (self.size a + self.size b) }
  (Forest.joined root a b) ((x, y) :: merged) := by
 have tops : root a = a ∧ root b = b := by
  rcases ends with ⟨isA, isB⟩ | ⟨isA, isB⟩ <;> rw [isA, isB] <;>
   exact ⟨sound.forest.root_root _, sound.forest.root_root _⟩
 obtain ⟨top, other⟩ := tops
 have positive : 0 < self.size a := by
  rw [sound.size a top]
  exact tree_nonempty top
 constructor
 · refine sound.forest.link top other different ?_ ?_ ?_
   · simp_all
   · dsimp only
     rw [update_self]
     omega
   · dsimp only
     rw [update_self]
     omega
 · rw [← withPair_pairs]
   exact sound.represents.join ends
 · have counted := card_roots_joined top other different
   rw [sound.count, ← counted]
   push_cast
   omega
 · intro r own
   have isRoot : root r = r ∧ r ≠ b := by
    have member := mem_roots.mpr own
    rw [roots_joined top different, Finset.mem_erase, mem_roots] at member
    exact ⟨member.2, member.1⟩
   dsimp only
   by_cases atTop : r = a
   · rw [atTop, update_self, card_tree_joined different, sound.size a top,
      sound.size b other]
   · rw [update_of_ne atTop, tree_joined_of_ne atTop isRoot.2]
     exact sound.size r isRoot.1

theorem merge_sound (p q : Fin n) :
 ∃ after newRoot, self.merge p q = some after ∧ Sound after newRoot ((p, q) :: merged) := by
 obtain ⟨first, foundP, firstSound⟩ := find_sound sound p
 obtain ⟨second, foundQ, secondSound⟩ := find_sound firstSound q
 unfold merge
 rw [foundP, Option.bind_some]
 dsimp only
 rw [foundQ, Option.map_some]
 by_cases same : root p = root q
 · rw [if_pos same]
   refine ⟨second, root, rfl, secondSound.forest, ?_, secondSound.count, secondSound.size⟩
   rw [← withPair_pairs]
   exact secondSound.represents.known same
 · rw [if_neg same]
   split
   · exact ⟨_, _, rfl, link_sound secondSound (Or.inr ⟨rfl, rfl⟩) (Ne.symm same)⟩
   · exact ⟨_, _, rfl, link_sound secondSound (Or.inl ⟨rfl, rfl⟩) same⟩

theorem Sound.partitions : Partitions self.parent self.count merged :=
 partitions_of_forest sound.forest sound.represents sound.count

theorem Sound.sizesRight : SizesRight self merged := by
 intro r own
 have top := sound.forest.root_self r own
 rw [classSize_root sound.represents top]
 exact sound.size r top

theorem call_sound (request : Request n) :
 ∃ next reply newRoot, self.call request = some (next, reply) ∧
  Sound next newRoot (mergedAfter merged [request]) ∧ Right merged next request reply := by
 cases request with
 | merge p q =>
  obtain ⟨next, newRoot, called, kept⟩ := merge_sound sound p q
  refine ⟨next, .nothing, newRoot, ?_, kept, trivial⟩
  dsimp only [call]
  rw [called]
  rfl
 | find x =>
  obtain ⟨next, found, kept⟩ := find_sound sound x
  refine ⟨next, .element (root x), root, ?_, kept, kept.forest.root_eq_iff.mp rfl⟩
  dsimp only [call]
  rw [found]
  rfl
 | connected p q =>
  obtain ⟨first, foundP, firstSound⟩ := find_sound sound p
  obtain ⟨next, foundQ, kept⟩ := find_sound firstSound q
  refine ⟨next, .flag (root p == root q), root, ?_, kept, ?_⟩
  · dsimp only [call, connected]
    simp_all
  · exact beq_iff_eq.trans (sound.represents p q)
 | getCount => exact ⟨self, _, root, rfl, sound, sound.partitions.number⟩

end

theorem mergedAfter_cons (merged : List (Fin n × Fin n)) (first : Request n)
 (rest : List (Request n)) :
 mergedAfter merged (first :: rest) = mergedAfter (mergedAfter merged [first]) rest := by
 cases first <;> rfl

theorem run_sound (sound : Sound self root merged) (requests : List (Request n)) :
 ∃ final newRoot, self.run requests = some final ∧
  Sound final newRoot (mergedAfter merged requests) := by
 induction requests generalizing self root merged with
 | nil => exact ⟨self, root, rfl, sound⟩
 | cons first rest ih =>
  obtain ⟨next, reply, newRoot, called, kept, -⟩ := call_sound sound first
  unfold run
  rw [called, mergedAfter_cons]
  exact ih kept

end UF

/-- After every sequence of calls on a new structure of either kind the trees are the classes of
the merged pairs, with the ranks and sizes that they promise, and every further call ends and
returns what it has to. -/
theorem unionFind_correct (n : ℕ) :
 (∀ requests : List (Djset.Request n), ∃ self, (Djset.new n).run requests = some self ∧
  Partitions self.parent self.size (Djset.mergedAfter [] requests) ∧
  RankBounds self (Djset.mergedAfter [] requests) ∧
  ∀ request, ∃ next reply, self.call request = some (next, reply) ∧
   Djset.Right (Djset.mergedAfter [] requests) next request reply) ∧
 (∀ requests : List (UF.Request n), ∃ self, (UF.new n).run requests = some self ∧
  Partitions self.parent self.count (UF.mergedAfter [] requests) ∧
  SizesRight self (UF.mergedAfter [] requests) ∧
  ∀ request, ∃ next reply, self.call request = some (next, reply) ∧
   UF.Right (UF.mergedAfter [] requests) next request reply) := by
 constructor
 · intro requests
   obtain ⟨self, root, ran, sound⟩ := Djset.run_sound (Djset.new_sound n) requests
   refine ⟨self, ran, sound.partitions, sound.rankBounds, ?_⟩
   intro request
   obtain ⟨next, reply, -, called, -, right⟩ := Djset.call_sound sound request
   exact ⟨next, reply, called, right⟩
 · intro requests
   obtain ⟨self, root, ran, sound⟩ := UF.run_sound (UF.new_sound n) requests
   refine ⟨self, ran, sound.partitions, sound.sizesRight, ?_⟩
   intro request
   obtain ⟨next, reply, -, called, -, right⟩ := UF.call_sound sound request
   exact ⟨next, reply, called, right⟩

end MyNotes.Algorithms
