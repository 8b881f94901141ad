/-
The copy-on-write trie of project 0.

A node that is not changed is shared, so tries are values here.  The map of the children is
ordered by their characters.  A node holds a value of some type, and `Get<T>` casts it, so
the cast is a parameter.
-/

import MyNotes.Library.OrderedMap

namespace MyNotes.Cmu15445

open Library Option OrderedMap List

variable {Character Value T : Type}

/-- `TrieNode`, or `TrieNodeWithValue` where there is a value. -/
inductive TrieNode (Character Value : Type) where
 | mk (value : Option Value) (children : List (Character × TrieNode Character Value))

structure Trie (Character Value : Type) where
 root : Option (TrieNode Character Value)

namespace TrieNode

def value : TrieNode Character Value → Option Value
 | mk value _ => value

def children : TrieNode Character Value → List (Character × TrieNode Character Value)
 | mk _ children => children

def empty : TrieNode Character Value := mk none []

@[simp] theorem value_mk {value : Option Value}
 {children : List (Character × TrieNode Character Value)} : (mk value children).value = value :=
 rfl

@[simp] theorem children_mk {value : Option Value}
 {children : List (Character × TrieNode Character Value)} :
 (mk value children).children = children := rfl

variable [LinearOrder Character]

/-- The loop of `Get`. -/
def walk : Option (TrieNode Character Value) → List Character → Option (TrieNode Character Value)
 | node, [] => node
 | none, _ :: _ => none
 | some node, ch :: key => walk (find ch node.children) key

/-- The path of the key is cloned or created, and its end gets the value. -/
def put (value : Value) : List Character → TrieNode Character Value → TrieNode Character Value
 | [], node => mk (some value) node.children
 | ch :: key, node =>
  let child := (find ch node.children).getD empty
  mk node.value (insert ch (put value key child) node.children)

/-- The recursion of `Remove` on a clone of a node; `none` is `false`, where no key was removed. -/
def removeCycle : TrieNode Character Value → List Character → Option (TrieNode Character Value)
 | _, [] => none
 | node, [ch] => do
  let child ← find ch node.children
  if child.value.isNone then none
  else if child.children.isEmpty then
   some (mk node.value (erase ch node.children))
  else some (mk node.value (insert ch (mk none child.children) node.children))
 | node, ch :: next :: key => do
  let child ← find ch node.children
  let ptr ← removeCycle child (next :: key)
  if ptr.children.isEmpty && ptr.value.isNone then
   some (mk node.value (erase ch node.children))
  else some (mk node.value (insert ch ptr node.children))

end TrieNode

namespace Trie

def empty : Trie Character Value := ⟨none⟩

variable [LinearOrder Character]

/-- `Get<T>`; the cast is `dynamic_cast` to a node with a `T`. -/
def get (cast : Value → Option T) (self : Trie Character Value) (key : List Character) :
 Option T := do
 let node ← TrieNode.walk self.root key
 let value ← node.value
 cast value

def put (self : Trie Character Value) (key : List Character) (value : Value) :
 Trie Character Value :=
 ⟨some ((self.root.getD TrieNode.empty).put value key)⟩

def remove (self : Trie Character Value) (key : List Character) : Trie Character Value :=
 match self.root with
 | none => self
 | some root =>
  if key.isEmpty then
   if root.value.isSome then
    if root.children.isEmpty then ⟨none⟩ else ⟨some (.mk none root.children)⟩
   else self
  else match root.removeCycle key with
   | none => self
   | some root => if root.children.isEmpty && root.value.isNone then ⟨none⟩ else ⟨some root⟩

inductive Operation (Character Value : Type) where
 | put (key : List Character) (value : Value)
 | remove (key : List Character)

def apply (self : Trie Character Value) : Operation Character Value → Trie Character Value
 | .put key value => self.put key value
 | .remove key => self.remove key

def build (operations : List (Operation Character Value)) : Trie Character Value :=
 operations.foldl apply empty

end Trie

/-! ### What a node stores -/

namespace TrieNode

variable [LinearOrder Character]

def lookup (node : TrieNode Character Value) (key : List Character) : Option Value :=
 (walk (some node) key).bind value

variable {node child : TrieNode Character Value} {ch : Character} {key other : List Character}
 {stored : Value} {below : Option Value}

theorem walk_none : walk (none : Option (TrieNode Character Value)) key = none := by
 cases key <;> rfl

@[simp] theorem lookup_nil : node.lookup [] = node.value := rfl

theorem lookup_cons : node.lookup (ch :: key) =
 (find ch node.children).bind fun child => child.lookup key := by
 change (walk (find ch node.children) key).bind value = _
 cases find ch node.children with
 | none =>
  rw [walk_none]
  rfl
 | some child => rfl

@[simp] theorem lookup_empty : (empty : TrieNode Character Value).lookup key = none := by
 cases key with
 | nil => rfl
 | cons ch key => exact lookup_cons

theorem lookup_mk_insert : (mk below (insert ch child node.children)).lookup key =
 match key with
 | [] => below
 | head :: rest => if head = ch then child.lookup rest else node.lookup (head :: rest) := by
 cases key with
 | nil => rfl
 | cons head rest =>
  rw [lookup_cons]
  change (find head (insert ch child node.children)).bind _ = _
  rw [find_insert]
  dsimp only
  split
  · rfl
  · rw [lookup_cons]

theorem lookup_mk_erase : (mk below (erase ch node.children)).lookup key =
 match key with
 | [] => below
 | head :: rest => if head = ch then none else node.lookup (head :: rest) := by
 cases key with
 | nil => rfl
 | cons head rest =>
  rw [lookup_cons]
  change (find head (erase ch node.children)).bind _ = _
  rw [find_erase]
  dsimp only
  split
  · rfl
  · rw [lookup_cons]

theorem lookup_child (found : find ch node.children = some child) :
 node.lookup (ch :: key) = child.lookup key := by
 rw [lookup_cons, found]
 rfl

theorem lookup_put : (node.put stored key).lookup other =
 if other = key then some stored else node.lookup other := by
 induction key generalizing node other with
 | nil =>
  cases other with
  | nil => rfl
  | cons head rest => exact (lookup_cons.trans lookup_cons.symm).trans (if_neg nofun).symm
 | cons ch key ih =>
  unfold put
  rw [lookup_mk_insert]
  cases other with
  | nil => exact (if_neg nofun).symm
  | cons head rest =>
   dsimp only
   by_cases same : head = ch
   · subst same
     rw [if_pos rfl, ih]
     by_cases atKey : rest = key
     · rw [if_pos atKey, if_pos (congrArg _ atKey)]
     · rw [if_neg atKey, if_neg fun equal => atKey (cons.inj equal).2, lookup_cons]
       cases find head node.children with
       | none => exact lookup_empty
       | some child => rfl
   · simp_all

inductive Canonical : TrieNode Character Value → Prop
 | mk {below : Option Value} {children : List (Character × TrieNode Character Value)}
  (increasing : OrderedMap.Increasing children)
  (useful : below ≠ none ∨ children ≠ [])
  (canonical : ∀ entry ∈ children, Canonical entry.2) : Canonical (mk below children)

/-- Nothing below a node is useless, the node itself apart. -/
structure Clean (node : TrieNode Character Value) : Prop where
 increasing : OrderedMap.Increasing node.children
 canonical : ∀ entry ∈ node.children, Canonical entry.2

theorem Canonical.clean (canonical : Canonical node) : node.Clean := by
 cases canonical with
 | mk increasing useful canonical => exact ⟨increasing, canonical⟩

theorem Clean.to_canonical (clean : node.Clean) (useful : node.value ≠ none ∨ node.children ≠ []) :
 Canonical node := by
 cases node with
 | mk below children => exact .mk clean.increasing useful clean.canonical

theorem Clean.of_find (clean : node.Clean) (found : find ch node.children = some child) :
 Canonical child := clean.canonical _ (mem_of_find found)

theorem empty_clean : (empty : TrieNode Character Value).Clean :=
 ⟨.nil, fun _ member => absurd member not_mem_nil⟩

theorem Clean.insert (clean : node.Clean) (canonical : Canonical child) :
 (TrieNode.mk below (insert ch child node.children)).Clean where
 increasing := insert_increasing clean.increasing
 canonical entry member := by
  rcases mem_insert member with same | old
  · exact same ▸ canonical
  · exact clean.canonical entry old

theorem Clean.erase (clean : node.Clean) :
 (TrieNode.mk below (erase ch node.children)).Clean where
 increasing := erase_increasing clean.increasing
 canonical entry member := clean.canonical entry (mem_of_mem_erase member)

theorem put_canonical (clean : node.Clean) : Canonical (node.put stored key) := by
 induction key generalizing node with
 | nil => exact .mk clean.increasing (.inl (some_ne_none _)) clean.canonical
 | cons ch key ih =>
  refine (clean.insert (ih ?_)).to_canonical (.inr insert_ne_nil)
  cases found : find ch node.children with
  | none => exact empty_clean
  | some child => exact (clean.of_find found).clean

theorem Canonical.exists_lookup (canonical : Canonical node) : ∃ key, node.lookup key ≠ none := by
 induction canonical with
 | @mk below children increasing useful canonical ih =>
  rcases useful with here | deeper
  · exact ⟨[], here⟩
  · obtain ⟨⟨ch, child⟩, rest, same⟩ := exists_cons_of_ne_nil deeper
    have member : (ch, child) ∈ children := same ▸ mem_cons_self
    obtain ⟨key, stored⟩ := ih _ member
    refine ⟨ch :: key, ?_⟩
    rw [lookup_cons]
    change (find ch children).bind _ ≠ none
    rw [find_of_mem increasing member]
    exact stored

theorem Canonical.eq_of_lookup {twin : TrieNode Character Value} (canonical : Canonical node)
 (twinCanonical : Canonical twin) (same : ∀ key, node.lookup key = twin.lookup key) :
 node = twin := by
 induction canonical generalizing twin with
 | @mk below children increasing useful canonical ih =>
  cases twinCanonical with
  | @mk twinBelow twins twinIncreasing twinUseful twinCanonical =>
   have values : below = twinBelow := same []
   have subs (ch : Character) : find ch children = find ch twins := by
    have deeper (key : List Character) :
     (find ch children).bind (fun child => child.lookup key) =
      (find ch twins).bind fun child => child.lookup key :=
     lookup_cons.symm.trans ((same (ch :: key)).trans lookup_cons)
    cases left : find ch children with
    | none =>
     cases right : find ch twins with
     | none => rfl
     | some child =>
      obtain ⟨key, stored⟩ :=
       (twinCanonical _ (mem_of_find right)).exists_lookup
      have agree := deeper key
      simp_all
    | some child =>
     have member := mem_of_find left
     cases right : find ch twins with
     | none =>
      obtain ⟨key, stored⟩ := (canonical _ member).exists_lookup
      have agree := deeper key
      simp_all
     | some other =>
      have agree (key : List Character) : child.lookup key = other.lookup key := by
       have agree := deeper key
       rw [left, right] at agree
       exact agree
      exact congrArg some
       (ih _ member (twinCanonical _ (mem_of_find right)) agree)
   rw [values, eq_of_find increasing twinIncreasing subs]

/-! ### Removing a key -/

/-- A child in place of another, or none where it is useless. -/
def graft (ch : Character) (ptr node : TrieNode Character Value) : TrieNode Character Value :=
 if ptr.children.isEmpty && ptr.value.isNone then mk node.value (erase ch node.children)
 else mk node.value (insert ch ptr node.children)

omit [LinearOrder Character] in
theorem eq_empty (useless : (node.children.isEmpty && node.value.isNone) = true) :
 node = empty := by
 obtain ⟨below, children⟩ := node
 obtain ⟨noChildren, noValue⟩ := Bool.and_eq_true_iff.mp useless
 have noChildren : children = [] := isEmpty_iff.mp noChildren
 have noValue : below = none := isNone_iff_eq_none.mp noValue
 rw [noChildren, noValue]
 rfl

variable {ptr : TrieNode Character Value}

theorem graft_lookup : (graft ch ptr node).lookup key =
 match key with
 | [] => node.value
 | head :: rest => if head = ch then ptr.lookup rest else node.lookup (head :: rest) := by
 unfold graft
 split
 · rename_i useless
   rw [lookup_mk_erase, eq_empty useless]
   cases key with
   | nil => rfl
   | cons head rest =>
    dsimp only
    rw [lookup_empty]
 · exact lookup_mk_insert

theorem Clean.graft (clean : node.Clean) (below : ptr.Clean) :
 (graft ch ptr node).Clean := by
 unfold TrieNode.graft
 split
 · exact clean.erase
 · rename_i useful
   refine clean.insert (below.to_canonical ?_)
   grind

structure Removes (node next : TrieNode Character Value) (key : List Character) : Prop where
 clean : next.Clean
 lookup : ∀ other, next.lookup other = if other = key then none else node.lookup other

theorem Removes.graft (clean : node.Clean) (found : find ch node.children = some child)
 (removes : child.Removes ptr key) :
 node.Removes (graft ch ptr node) (ch :: key) where
 clean := clean.graft removes.clean
 lookup other := by
  rw [graft_lookup]
  cases other with
  | nil => exact (if_neg nofun).symm
  | cons head rest =>
   dsimp only
   by_cases same : head = ch
   · subst same
     rw [if_pos rfl, removes.lookup, lookup_child found]
     by_cases atKey : rest = key
     · rw [if_pos atKey, if_pos (congrArg _ atKey)]
     · simp
   · simp_all

theorem removes_value (clean : node.Clean) : node.Removes (mk none node.children) [] where
 clean := ⟨clean.increasing, clean.canonical⟩
 lookup other := by
  cases other with
  | nil => exact (if_pos rfl).symm
  | cons head rest => exact (lookup_cons.trans lookup_cons.symm).trans (if_neg nofun).symm

theorem removeCycle_last (found : find ch node.children = some child) :
 node.removeCycle [ch] =
  if child.value.isNone then none else some (graft ch (mk none child.children) node) := by
 simp only [removeCycle, found, bind_eq_bind, bind_some, graft, children_mk,
  value_mk, isNone_none, Bool.and_true, apply_ite some]

theorem removeCycle_inner {next : Character}
 (found : find ch node.children = some child) :
 node.removeCycle (ch :: next :: key) =
  (child.removeCycle (next :: key)).map fun ptr => graft ch ptr node := by
 simp only [removeCycle, found, bind_eq_bind, bind_some, graft]
 cases child.removeCycle (next :: key) with
 | none => rfl
 | some ptr => grind

theorem removeCycle_spec (clean : node.Clean) (nonempty : key ≠ []) :
 match node.removeCycle key with
 | none => node.lookup key = none
 | some next => node.Removes next key := by
 induction key generalizing node with
 | nil => exact absurd rfl nonempty
 | cons ch key ih =>
  cases found : find ch node.children with
  | none =>
   have absent : node.lookup (ch :: key) = none := by
    rw [lookup_cons, found]
    rfl
   cases key with
   | nil =>
    simp only [removeCycle, found]
    exact absent
   | cons next key =>
    simp only [removeCycle, found]
    exact absent
  | some child =>
   have below := (clean.of_find found).clean
   cases key with
   | nil =>
    rw [removeCycle_last found]
    by_cases noValue : child.value.isNone
    · rw [if_pos noValue]
      exact (lookup_child found).trans (isNone_iff_eq_none.mp noValue)
    · rw [if_neg noValue]
      exact Removes.graft clean found (removes_value below)
   | cons next key =>
    have spec := ih below (cons_ne_nil next key)
    rw [removeCycle_inner found]
    cases deeper : child.removeCycle (next :: key) with
    | none =>
     rw [deeper] at spec
     exact (lookup_child found).trans spec
    | some ptr =>
     rw [deeper] at spec
     exact Removes.graft clean found spec

end TrieNode

/-! ### Tries -/

namespace Trie

open TrieNode

variable [LinearOrder Character] {trie : Trie Character Value} {key : List Character}
 {stored : Value}

def lookup (self : Trie Character Value) (key : List Character) : Option Value :=
 self.root.bind fun root => root.lookup key

def Canonical (self : Trie Character Value) : Prop := ∀ root ∈ self.root, root.Canonical

theorem get_eq {cast : Value → Option T} : trie.get cast key = (trie.lookup key).bind cast := by
 unfold get lookup
 cases trie.root with
 | none =>
  rw [walk_none]
  rfl
 | some root => exact (bind_assoc _ _ _).symm

theorem empty_canonical : (empty : Trie Character Value).Canonical := fun _ member => by
 cases member

theorem put_canonical (canonical : trie.Canonical) : (trie.put key stored).Canonical := by
 intro root member
 cases member
 apply TrieNode.put_canonical
 cases here : trie.root with
 | none => exact empty_clean
 | some root => exact (canonical root here).clean

theorem lookup_put (other : List Character) : (trie.put key stored).lookup other =
 if other = key then some stored else trie.lookup other := by
 change ((trie.root.getD TrieNode.empty).put stored key).lookup other = _
 rw [TrieNode.lookup_put]
 unfold lookup
 cases trie.root with
 | none =>
  congr 1
  exact lookup_empty
 | some root => rfl

theorem pruned {node next : TrieNode Character Value} (removes : node.Removes next key) :
 let pruned : Trie Character Value :=
  if next.children.isEmpty && next.value.isNone then ⟨none⟩ else ⟨some next⟩
 pruned.Canonical ∧ ∀ other, pruned.lookup other =
  if other = key then none else node.lookup other := by
 split
 · rename_i useless
   refine ⟨empty_canonical, fun other => ?_⟩
   rw [← removes.lookup, eq_empty useless]
   exact lookup_empty.symm
 · rename_i useful
   refine ⟨?_, removes.lookup⟩
   intro root member
   cases member
   apply removes.clean.to_canonical
   grind

theorem remove_spec (canonical : trie.Canonical) : (trie.remove key).Canonical ∧
 ∀ other, (trie.remove key).lookup other = if other = key then none else trie.lookup other := by
 have unchanged (absent : trie.lookup key = none) : trie.Canonical ∧
  ∀ other, trie.lookup other = if other = key then none else trie.lookup other := by
  refine ⟨canonical, fun other => ?_⟩
  split
  · rename_i same
    rw [same, absent]
  · rfl
 obtain ⟨root⟩ := trie
 cases root with
 | none => exact unchanged rfl
 | some root =>
  have clean := (canonical root rfl).clean
  unfold remove
  dsimp only
  by_cases isEmpty : key = []
  · subst isEmpty
    rw [if_pos isEmpty_nil]
    by_cases hasValue : root.value.isSome
    · rw [if_pos hasValue]
      have removed := pruned (removes_value clean)
      simp only [children_mk, value_mk, isNone_none, Bool.and_true] at removed
      split
      · rename_i leaf
        rw [if_pos leaf] at removed
        exact removed
      · rename_i inner
        rw [if_neg inner] at removed
        exact removed
    · rw [if_neg hasValue]
      exact unchanged (not_isSome_iff_eq_none.mp hasValue)
  · rw [if_neg fun same => isEmpty (isEmpty_iff.mp same)]
    have spec := removeCycle_spec clean isEmpty
    cases removed : root.removeCycle key with
    | none =>
     rw [removed] at spec
     exact unchanged spec
    | some next =>
     rw [removed] at spec
     exact pruned spec

theorem build_canonical (operations : List (Operation Character Value)) :
 (build operations).Canonical := by
 refine foldlRecOn operations apply empty_canonical ?_
 intro trie canonical operation _
 cases operation with
 | put key value => exact put_canonical canonical
 | remove key => exact (remove_spec canonical).1

theorem root_eq_none (canonical : trie.Canonical) :
 trie.root = none ↔ ∀ key, trie.lookup key = none := by
 obtain ⟨root⟩ := trie
 cases root with
 | none => exact iff_of_true rfl fun key => rfl
 | some root =>
  refine iff_of_false (some_ne_none root) fun absent => ?_
  obtain ⟨key, stored⟩ := (canonical root rfl).exists_lookup
  exact stored (absent key)

theorem eq_of_lookup {twin : Trie Character Value} (canonical : trie.Canonical)
 (twinCanonical : twin.Canonical) (same : ∀ key, trie.lookup key = twin.lookup key) :
 trie = twin := by
 obtain ⟨root⟩ := trie
 obtain ⟨twinRoot⟩ := twin
 cases root with
 | none =>
  have empty := (root_eq_none twinCanonical).mpr fun key => (same key).symm
  exact congrArg Trie.mk empty.symm
 | some root =>
  cases twinRoot with
  | none =>
   have empty := (root_eq_none canonical).mpr same
   cases empty
  | some twinRoot =>
   have equal := (canonical root rfl).eq_of_lookup (twinCanonical twinRoot rfl) same
   rw [equal]

/-- Every built trie is the map that its operations describe, and there is one trie for each
map. -/
theorem canonical_map (cast : Value → Option T)
 (operations others : List (Operation Character Value)) :
 (∀ key value other, ((build operations).put key value).get cast other =
  if other = key then cast value else (build operations).get cast other) ∧
 (∀ key other, ((build operations).remove key).get cast other =
  if other = key then none else (build operations).get cast other) ∧
 (build operations).Canonical ∧
 ((build operations).root = none ↔ ∀ key, (build operations).lookup key = none) ∧
 ((∀ key, (build operations).lookup key = (build others).lookup key) →
  build operations = build others) := by
 have canonical := build_canonical operations
 refine ⟨?_, ?_, canonical, root_eq_none canonical,
  eq_of_lookup canonical (build_canonical others)⟩
 · intro key value other
   rw [get_eq, get_eq, lookup_put]
   split <;> rfl
 · intro key other
   rw [get_eq, get_eq, (remove_spec canonical).2]
   split <;> rfl

end Trie

end MyNotes.Cmu15445
