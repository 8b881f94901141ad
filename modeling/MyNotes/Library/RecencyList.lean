/-
A linked list whose nodes have identities, with a map from keys to nodes.

The identity of a node is what an iterator holds: it survives a move to the front and is
not used again.  `Indexed` says that list and map are in bijection, and `Recent` that the
list starts with the key used last.
-/

import Mathlib.Data.List.AList

namespace MyNotes.Library.RecencyList

open List Prod RecencyList AList

variable {Item Key : Type*}

abbrev Index (Key : Type*) := AList fun _ : Key => ℕ

def erase (nodes : List (ℕ × Item)) (id : ℕ) : List (ℕ × Item) :=
 nodes.filter fun node => node.1 ≠ id

def modify (change : Item → Item) (nodes : List (ℕ × Item)) (id : ℕ) : List (ℕ × Item) :=
 nodes.map fun node => if node.1 = id then (node.1, change node.2) else node

/-- `none` when no node has this identity, as for every operation through an iterator. -/
def toFront? (nodes : List (ℕ × Item)) (id : ℕ) : Option (List (ℕ × Item)) :=
 (nodes.lookup id).map fun item => (id, item) :: erase nodes id

def modify? (change : Item → Item) (nodes : List (ℕ × Item)) (id : ℕ) :
 Option (List (ℕ × Item)) :=
 (nodes.lookup id).map fun _ => modify change nodes id

def erase? (nodes : List (ℕ × Item)) (id : ℕ) : Option (List (ℕ × Item)) :=
 (nodes.lookup id).map fun _ => erase nodes id

section Lists

variable {nodes : List (ℕ × Item)} {id : ℕ} {item : Item}

theorem mem_erase {node : ℕ × Item} : node ∈ erase nodes id ↔ node ∈ nodes ∧ node.1 ≠ id := by
 unfold erase
 rw [mem_filter, decide_eq_true_iff]

section

variable (nodup : (nodes.map Prod.fst).Nodup)
include nodup

theorem lookup_of_mem (member : (id, item) ∈ nodes) : nodes.lookup id = some item := by
 induction nodes with
 | nil => cases member
 | cons first rest ih =>
  obtain ⟨firstId, firstItem⟩ := first
  rw [map_cons, nodup_cons] at nodup
  rw [lookup_cons]
  rcases mem_cons.mp member with same | later
  · cases same
    rw [beq_self_eq_true]
  · have different : id ≠ firstId := by
     intro same
     exact nodup.1 (mem_map.mpr ⟨(id, item), later, same⟩)
    grind

theorem erase_nodup : ((erase nodes id).map fst).Nodup :=
 nodup.sublist (filter_sublist.map fst)

theorem perm_cons_erase (member : (id, item) ∈ nodes) :
 nodes.Perm ((id, item) :: erase nodes id) := by
 induction nodes with
 | nil => cases member
 | cons first rest ih =>
  rw [map_cons, nodup_cons] at nodup
  unfold erase
  rcases mem_cons.mp member with same | later
  · subst first
    have others : ∀ node ∈ rest, decide (node.1 ≠ id) = true := by
     intro node inside
     refine decide_eq_true fun same => nodup.1 ?_
     exact mem_map.mpr ⟨node, inside, same⟩
    rw [filter_cons, if_neg (by simp), filter_eq_self.mpr others]
  · have different : first.1 ≠ id := by
     intro same
     exact nodup.1 (mem_map.mpr ⟨(id, item), later, same.symm⟩)
    rw [filter_cons, if_pos (decide_eq_true different)]
    exact ((ih nodup.2 later).cons first).trans (List.Perm.swap ..)

end

theorem erase_last {init : List (ℕ × Item)} {last : ℕ × Item}
 (nodup : ((init ++ [last]).map fst).Nodup) : erase (init ++ [last]) last.1 = init := by
 unfold erase
 have others : ∀ node ∈ init, decide (node.1 ≠ last.1) = true := by
  intro node member
  rw [map_append, nodup_append] at nodup
  exact decide_eq_true (nodup.2.2 node.1 (mem_map_of_mem member) last.1
   (mem_singleton_self _))
 have itself : [last].filter (fun node => decide (node.1 ≠ last.1)) = [] :=
  filter_eq_nil_iff.mpr fun node member => by
   simp_all
 rw [filter_append, filter_eq_self.mpr others, itself, append_nil]

theorem toFront?_of_lookup (found : nodes.lookup id = some item) :
 toFront? nodes id = some ((id, item) :: erase nodes id) := by
 unfold toFront?
 rw [found]
 rfl

theorem erase?_of_lookup (found : nodes.lookup id = some item) :
 erase? nodes id = some (erase nodes id) := by
 unfold erase?
 rw [found]
 rfl

variable (change : Item → Item)

theorem modify?_of_lookup (found : nodes.lookup id = some item) :
 modify? change nodes id = some (modify change nodes id) := by
 unfold modify?
 rw [found]
 rfl

theorem modify_erase : modify change (erase nodes id) id = erase nodes id := by
 unfold modify
 conv_rhs => rw [← map_id (erase nodes id)]
 exact map_congr_left fun node member => if_neg (mem_erase.mp member).2

theorem erase_modify : erase (modify change nodes id) id = erase nodes id := by
 have commute : erase (modify change nodes id) id = modify change (erase nodes id) id := by
  unfold erase modify
  rw [filter_map]
  refine congrArg _ (filter_congr fun node _ => ?_)
  rw [Function.comp_apply, decide_eq_decide]
  split <;> rfl
 rw [commute, modify_erase]

theorem lookup_modify : (modify change nodes id).lookup id = (nodes.lookup id).map change := by
 induction nodes with
 | nil => rfl
 | cons first rest ih =>
  obtain ⟨firstId, firstItem⟩ := first
  unfold modify at ih ⊢
  rw [map_cons, lookup_cons]
  by_cases same : firstId = id
  · simp_all
  · grind

theorem modify?_front :
 modify? change ((id, item) :: erase nodes id) id =
  some ((id, change item) :: erase nodes id) := by
 rw [modify?_of_lookup change lookup_cons_self]
 refine congrArg some ?_
 conv_rhs => rw [← modify_erase change]
 exact congrArg (· :: _) (if_pos rfl)

theorem toFront?_modify (found : nodes.lookup id = some item) :
 toFront? (modify change nodes id) id = some ((id, change item) :: erase nodes id) := by
 rw [toFront?_of_lookup ((lookup_modify change).trans (congrArg _ found)), erase_modify]

end Lists

/-! ### The map -/

variable [DecidableEq Key]

def keysOf (key : Item → Key) (nodes : List (ℕ × Item)) : List Key :=
 nodes.map fun node => key node.2

structure Indexed (key : Item → Key) (nodes : List (ℕ × Item)) (index : Index Key) : Prop where
 nodup : (nodes.map Prod.fst).Nodup
 lookup : ∀ k id, index.lookup k = some id ↔ ∃ item, (id, item) ∈ nodes ∧ key item = k

namespace Indexed

variable {key : Item → Key} {nodes : List (ℕ × Item)} {index : Index Key} {k : Key} {id : ℕ}

theorem empty (key : Item → Key) : Indexed key [] ∅ where
 nodup := nodup_nil
 lookup k id := by
  rw [lookup_empty]
  constructor
  · intro none
    cases none
  · intro ⟨_, member, _⟩
    cases member

variable (indexed : Indexed key nodes index)
include indexed

theorem lookup_key {node : ℕ × Item} (member : node ∈ nodes) :
 index.lookup (key node.2) = some node.1 :=
 (indexed.lookup _ _).mpr ⟨node.2, member, rfl⟩

theorem deref (found : index.lookup k = some id) :
 ∃ item, nodes.lookup id = some item ∧ (id, item) ∈ nodes ∧ key item = k := by
 obtain ⟨item, member, same⟩ := (indexed.lookup k id).mp found
 exact ⟨item, lookup_of_mem indexed.nodup member, member, same⟩

theorem item_unique {first second : Item} (one : (id, first) ∈ nodes)
 (other : (id, second) ∈ nodes) : first = second :=
 Option.some.inj ((lookup_of_mem indexed.nodup one).symm.trans
  (lookup_of_mem indexed.nodup other))

theorem node_unique {first second : ℕ × Item} (one : first ∈ nodes) (other : second ∈ nodes)
 (same : key first.2 = key second.2) : first = second := by
 have sameId : first.1 = second.1 := by
  have found := indexed.lookup_key one
  rw [same, indexed.lookup_key other] at found
  exact (Option.some.inj found).symm
 exact Prod.ext sameId (indexed.item_unique one (sameId ▸ other))

theorem id_iff_key (found : index.lookup k = some id) {node : ℕ × Item} (member : node ∈ nodes) :
 node.1 = id ↔ key node.2 = k := by
 constructor
 · intro same
   obtain ⟨item, -, present, isKey⟩ := indexed.deref found
   rw [← isKey, indexed.item_unique (show (id, node.2) ∈ nodes from same ▸ member) present]
 · intro same
   have again := indexed.lookup_key member
   grind

theorem mem_keysOf : k ∈ keysOf key nodes ↔ k ∈ index := by
 unfold keysOf
 rw [mem_map, ← lookup_isSome]
 constructor
 · intro ⟨node, member, same⟩
   rw [← same, indexed.lookup_key member]
   rfl
 · intro present
   obtain ⟨id, found⟩ := Option.isSome_iff_exists.mp present
   obtain ⟨item, member, same⟩ := (indexed.lookup k id).mp found
   exact ⟨(id, item), member, same⟩

theorem lookup_eq_none : index.lookup k = none ↔ k ∉ keysOf key nodes := by
 rw [AList.lookup_eq_none, indexed.mem_keysOf]

theorem keysOf_nodup : (keysOf key nodes).Nodup :=
 (nodup_map_iff_inj_on (List.Nodup.of_map _ indexed.nodup)).mpr fun _ one _ other =>
  indexed.node_unique one other

theorem length_keys : index.keys.length = nodes.length := by
 have perm : List.Perm index.keys (keysOf key nodes) :=
  (perm_ext_iff_of_nodup index.keys_nodup indexed.keysOf_nodup).mpr fun k =>
   (mem_keys.symm.trans indexed.mem_keysOf.symm)
 rw [perm.length_eq]
 exact length_map _

section

variable (found : index.lookup k = some id)
include found

theorem keysOf_erase :
 keysOf key (erase nodes id) = (keysOf key nodes).filter (· ≠ k) := by
 unfold keysOf erase
 rw [filter_map]
 refine congrArg _ (filter_congr fun node member => ?_)
 rw [Function.comp_apply, decide_eq_decide, not_iff_not]
 exact indexed.id_iff_key found member

theorem erase : Indexed key (erase nodes id) (index.erase k) where
 nodup := erase_nodup indexed.nodup
 lookup other otherId := by
  simp only [mem_erase]
  by_cases same : other = k
  · rw [same, lookup_erase]
    constructor
    · intro none
      cases none
    · intro ⟨item, ⟨member, different⟩, isKey⟩
      exact absurd ((indexed.id_iff_key found member).mpr isKey) different
  · rw [lookup_erase_ne same, indexed.lookup]
    constructor
    · intro ⟨item, member, isKey⟩
      refine ⟨item, ⟨member, fun sameId => same ?_⟩, isKey⟩
      rw [← isKey]
      exact (indexed.id_iff_key found member).mp sameId
    · grind

theorem front {item : Item} (isKey : key item = k) :
 Indexed key ((id, item) :: RecencyList.erase nodes id) index where
 nodup := by
  rw [map_cons, nodup_cons]
  refine ⟨fun again => ?_, erase_nodup indexed.nodup⟩
  obtain ⟨node, member, same⟩ := mem_map.mp again
  exact (mem_erase.mp member).2 same
 lookup other otherId := by
  simp only [mem_cons, mem_erase]
  by_cases same : other = k
  · rw [same, found]
    constructor
    · simp_all
    · intro ⟨again, either, againKey⟩
      rcases either with isFront | ⟨member, different⟩
      · rw [(mk.inj isFront).1]
      · exact absurd ((indexed.id_iff_key found member).mpr againKey) different
  · rw [indexed.lookup]
    constructor
    · intro ⟨again, member, againKey⟩
      refine ⟨again, .inr ⟨member, fun sameId => same ?_⟩, againKey⟩
      rw [← againKey]
      exact (indexed.id_iff_key found member).mp sameId
    · intro ⟨again, either, againKey⟩
      rcases either with isFront | ⟨member, -⟩
      · simp_all
      · exact ⟨again, member, againKey⟩

theorem keysOf_front {item : Item} (isKey : key item = k) :
 keysOf key ((id, item) :: RecencyList.erase nodes id) =
  k :: (keysOf key nodes).filter (· ≠ k) := by
 rw [← indexed.keysOf_erase found, ← isKey]
 rfl

end

omit indexed in
theorem dropLast {init : List (ℕ × Item)} {last : ℕ × Item}
 (indexed : Indexed key (init ++ [last]) index) :
 Indexed key init (index.erase (key last.2)) := by
 have found := indexed.lookup_key (mem_append_right init (mem_singleton_self last))
 have erased := indexed.erase found
 rw [erase_last indexed.nodup] at erased
 exact erased

omit indexed [DecidableEq Key] in
theorem keysOf_concat (key : Item → Key) (init : List (ℕ × Item)) (last : ℕ × Item) :
 keysOf key (init ++ [last]) = keysOf key init ++ [key last.2] :=
 map_append

theorem push (item : Item) {fresh : ℕ} (new : key item ∉ keysOf key nodes)
 (unused : ∀ node ∈ nodes, node.1 ≠ fresh) :
 Indexed key ((fresh, item) :: nodes) (index.insert (key item) fresh) where
 nodup := by
  rw [map_cons, nodup_cons]
  refine ⟨fun again => ?_, indexed.nodup⟩
  grind
 lookup k id := by
  simp only [mem_cons]
  by_cases same : k = key item
  · rw [same, lookup_insert]
    constructor
    · simp_all
    · intro ⟨other, either, isKey⟩
      rcases either with isNew | old
      · rw [(mk.inj isNew).1]
      · exact absurd (mem_map.mpr ⟨(id, other), old, isKey⟩) new
  · rw [lookup_insert_ne same, indexed.lookup]
    constructor
    · grind
    · intro ⟨other, either, isKey⟩
      rcases either with isNew | old
      · simp_all
      · exact ⟨other, old, isKey⟩

end Indexed

/-! ### Recency -/

/-- `used` lists the keys of the calls, the last one first. -/
def Older (used : List Key) (key other : Key) : Prop := used.idxOf other < used.idxOf key

def Recent (used keys : List Key) : Prop := keys.Pairwise fun recent old => Older used old recent

section Recency

variable {used keys : List Key} {k : Key}

theorem older_use {key other : Key} (keyOther : key ≠ k) (otherOther : other ≠ k) :
 Older (k :: used) key other ↔ Older used key other := by
 unfold Older
 grind

theorem older_used {key : Key} (different : key ≠ k) : Older (k :: used) key k := by
 unfold Older
 grind

section

variable (recent : Recent used keys)
include recent

theorem Recent.skip (absent : k ∉ keys) : Recent (k :: used) keys :=
 List.Pairwise.imp_of_mem (fun {_ _} first second older =>
  (older_use (ne_of_mem_of_not_mem second absent)
   (ne_of_mem_of_not_mem first absent)).mpr older) recent

theorem Recent.use : Recent (k :: used) (k :: keys.filter (· ≠ k)) := by
 have others : ∀ other ∈ keys.filter (· ≠ k), other ≠ k := fun other member =>
  of_decide_eq_true (mem_filter.mp member).2
 refine pairwise_cons.mpr ⟨fun other member => older_used (others other member), ?_⟩
 exact Recent.skip (recent.sublist filter_sublist) fun again => others k again rfl

theorem Recent.push (absent : k ∉ keys) : Recent (k :: used) (k :: keys) :=
 pairwise_cons.mpr
  ⟨fun _ member => older_used (ne_of_mem_of_not_mem member absent), recent.skip absent⟩

theorem Recent.sublist {fewer : List Key} (sublist : fewer.Sublist keys) : Recent used fewer :=
 List.Pairwise.sublist sublist recent

end

theorem Recent.last {init : List Key} {last : Key} (recent : Recent used (init ++ [last]))
 {other : Key} (member : other ∈ init ++ [last]) (different : other ≠ last) :
 Older used last other := by
 refine (pairwise_append.mp recent).2.2 other ?_ last (mem_singleton_self _)
 rcases mem_append.mp member with before | isLast
 · exact before
 · simp_all

end Recency

end MyNotes.Library.RecencyList
