/-
Threads on the B+ tree of project 2 of 2022.

A thread is one call.  It stands at a point between two latch operations or page reads, with
the latches that it holds there; the latch of a page is what the threads hold of it.  A
thread that would change a page without the latch for it is stranded instead.  Next to the
tree a run keeps, for each thread, the entries that the tree has had ever since its call of
`GetValue` began.
-/

import MyNotes.Cmu15445.BPlusTree

namespace MyNotes.Cmu15445

open Library.PagedTree Function

variable {Key Value Tid : Type}

/-- What a writer has latched: the root latch, the pages of the page set, nearest first, its
page, and pages that it has left behind or shares with a sibling. -/
structure Descent (Key Value : Type) where
 operation : Operation Key Value
 rootHeld : Bool
 pageSet : List PageId
 page : PageId
 others : List PageId

namespace Descent

def latched (self : Descent Key Value) : List PageId :=
 self.page :: (self.pageSet ++ self.others)

theorem page_mem_latched (self : Descent Key Value) : self.page ∈ self.latched :=
 List.mem_cons_self

theorem mem_latched_of_pageSet {self : Descent Key Value} {page : PageId}
 (member : page ∈ self.pageSet) : page ∈ self.latched :=
 List.mem_cons_of_mem _ (List.mem_append_left _ member)

theorem mem_latched_of_others {self : Descent Key Value} {page : PageId}
 (member : page ∈ self.others) : page ∈ self.latched :=
 List.mem_cons_of_mem _ (List.mem_append_right _ member)

def down (self : Descent Key Value) (child : PageId) : Descent Key Value :=
 { self with pageSet := self.page :: self.pageSet, page := child }

/-- Back to the parent; the pages below it stay latched. -/
def up (self : Descent Key Value) (parent : PageId) (above : List PageId) : Descent Key Value :=
 { self with pageSet := above, page := parent, others := self.page :: self.others }

end Descent

inductive Thread (Key Value : Type) where
 | idle
 | asked (key : Key)
 | rootRLocked (key : Key)
 | rootFetched (key : Key) (page : PageId)
 | rootReleased (key : Key) (page : PageId)
 | searching (key : Key) (page : PageId)
 | childFetched (key : Key) (page child : PageId)
 | crossing (key : Key) (page child : PageId)
 | found (key : Key) (page : PageId) (result : Option Value)
 | returned (key : Key) (result : Option Value)
 | failed
 | called (operation : Operation Key Value)
 | rootWLocked (operation : Operation Key Value)
 | rootChosen (operation : Operation Key Value) (page : PageId)
 | latched (descent : Descent Key Value)
 | releasing (descent : Descent Key Value)
 | descending (descent : Descent Key Value)
 | childChosen (descent : Descent Key Value) (child : PageId)
 | changed (descent : Descent Key Value)
 | paired (descent : Descent Key Value) (parent left right : PageId)
 | stranded (descent : Descent Key Value)
 | finishing (rootHeld : Bool) (pages : List PageId)
 | finished

namespace Thread

/-- The pages that a thread has latched for reading. -/
def reads : Thread Key Value → List PageId
 | .searching _ page => [page]
 | .childFetched _ page _ => [page]
 | .crossing _ page child => [page, child]
 | .found _ page _ => [page]
 | _ => []

/-- The pages that a thread has latched for writing. -/
def writes : Thread Key Value → List PageId
 | .latched descent => descent.latched
 | .releasing descent => descent.latched
 | .descending descent => descent.latched
 | .childChosen descent _ => descent.latched
 | .changed descent => descent.latched
 | .paired descent .. => descent.latched
 | .stranded descent => descent.latched
 | .finishing _ pages => pages
 | _ => []

def readsRoot : Thread Key Value → Bool
 | .rootRLocked _ => true
 | .rootFetched .. => true
 | _ => false

def writesRoot : Thread Key Value → Bool
 | .rootWLocked _ => true
 | .rootChosen .. => true
 | .latched descent => descent.rootHeld
 | .releasing descent => descent.rootHeld
 | .descending descent => descent.rootHeld
 | .childChosen descent _ => descent.rootHeld
 | .changed descent => descent.rootHeld
 | .paired descent .. => descent.rootHeld
 | .stranded descent => descent.rootHeld
 | .finishing rootHeld _ => rootHeld
 | _ => false

end Thread

structure System (Tid Key Value : Type) where
 tree : BPlusTree Key Value
 nextPageId : PageId
 thread : Tid → Thread Key Value
 lasting : Tid → Key → Value → Prop

namespace System

section

variable (self : System Tid Key Value)

def Readable (tid : Tid) (page : PageId) : Prop :=
 ∀ other ≠ tid, page ∉ (self.thread other).writes

def Writable (tid : Tid) (page : PageId) : Prop :=
 ∀ other ≠ tid, page ∉ (self.thread other).writes ∧ page ∉ (self.thread other).reads

def RootReadable (tid : Tid) : Prop :=
 ∀ other ≠ tid, (self.thread other).writesRoot = false

def RootWritable (tid : Tid) : Prop :=
 ∀ other ≠ tid, (self.thread other).writesRoot = false ∧ (self.thread other).readsRoot = false

end

end System

variable [LinearOrder Key]

def Neighbours (tree : BPlusTree Key Value) (parent left right : PageId) : Prop :=
 ∃ first before separator after, tree.node parent =
  some (.inner first (before ++ (separator, right) :: after)) ∧ lastChild first before = left

/-- The steps of `GetValue`. -/
inductive Reads (self : System Tid Key Value) (tid : Tid) :
 Thread Key Value → Thread Key Value → Prop
 | getValue {key : Key} : Reads self tid .idle (.asked key)
 | rLockRoot {key : Key} (free : self.RootReadable tid) :
  Reads self tid (.asked key) (.rootRLocked key)
 | fetchRoot {key : Key} {page : PageId} (isRoot : self.tree.root = some page) :
  Reads self tid (.rootRLocked key) (.rootFetched key page)
 -- `assert(root_page_id_ != INVALID_PAGE_ID)`
 | noRoot {key : Key} (empty : self.tree.root = none) :
  Reads self tid (.rootRLocked key) .failed
 -- the root latch goes before the page is latched
 | rUnlockRoot {key : Key} {page : PageId} :
  Reads self tid (.rootFetched key page) (.rootReleased key page)
 | rLatchRoot {key : Key} {page : PageId} (free : self.Readable tid page) :
  Reads self tid (.rootReleased key page) (.searching key page)
 | fetchChild {key : Key} {page first : PageId} {rest : List (Key × PageId)}
  (inner : self.tree.node page = some (.inner first rest)) :
  Reads self tid (.searching key page) (.childFetched key page (route key first rest))
 | rLatchChild {key : Key} {page child : PageId} (free : self.Readable tid child) :
  Reads self tid (.childFetched key page child) (.crossing key page child)
 | rUnlatchParent {key : Key} {page child : PageId} :
  Reads self tid (.crossing key page child) (.searching key child)
 | lookup {key : Key} {page : PageId} {entries : List (Key × Value)}
  (leaf : self.tree.node page = some (.leaf entries)) :
  Reads self tid (.searching key page)
   (.found key page (BPlusTreePage.lookup key entries))
 | deleted {key : Key} {page : PageId} (gone : self.tree.node page = none) :
  Reads self tid (.searching key page) .failed
 | rUnlatchLeaf {key : Key} {page : PageId} {result : Option Value} :
  Reads self tid (.found key page result) (.returned key result)

/-- The steps of `Insert` and `Remove` that leave the tree as it is. -/
inductive Crabs (sizes : PageSizes) (self : System Tid Key Value) (tid : Tid) :
 Thread Key Value → Thread Key Value → Prop
 | call {operation : Operation Key Value} : Crabs sizes self tid .idle (.called operation)
 | wLockRoot {operation : Operation Key Value} (free : self.RootWritable tid) :
  Crabs sizes self tid (.called operation) (.rootWLocked operation)
 | nothing {key : Key} (empty : self.tree.root = none) :
  Crabs sizes self tid (.rootWLocked (.delete key)) (.finishing true [])
 | fetchRoot {operation : Operation Key Value} {page : PageId}
  (isRoot : self.tree.root = some page) :
  Crabs sizes self tid (.rootWLocked operation) (.rootChosen operation page)
 | wLatchRoot {operation : Operation Key Value} {page : PageId}
  (free : self.Writable tid page) :
  Crabs sizes self tid (.rootChosen operation page) (.latched ⟨operation, true, [], page, []⟩)
 | isSafe {descent : Descent Key Value} {node : BPlusTreePage Key Value}
  (found : self.tree.node descent.page = some node)
  (test : (if descent.pageSet.isEmpty then descent.operation.safeRoot sizes node
   else descent.operation.safe sizes node) = true) :
  Crabs sizes self tid (.latched descent) (.releasing descent)
 | notSafe {descent : Descent Key Value} {node : BPlusTreePage Key Value}
  (found : self.tree.node descent.page = some node)
  (test : (if descent.pageSet.isEmpty then descent.operation.safeRoot sizes node
   else descent.operation.safe sizes node) = false) :
  Crabs sizes self tid (.latched descent) (.descending descent)
 | releaseRoot {descent : Descent Key Value} :
  Crabs sizes self tid (.releasing descent) (.releasing { descent with rootHeld := false })
 | releasePage {descent : Descent Key Value} {page : PageId}
  (member : page ∈ descent.pageSet) :
  Crabs sizes self tid (.releasing descent)
   (.releasing { descent with pageSet := descent.pageSet.erase page })
 | released {descent : Descent Key Value} (root : descent.rootHeld = false)
  (empty : descent.pageSet = []) :
  Crabs sizes self tid (.releasing descent) (.descending descent)
 | fetchChild {descent : Descent Key Value} {first : PageId} {rest : List (Key × PageId)}
  (inner : self.tree.node descent.page = some (.inner first rest)) :
  Crabs sizes self tid (.descending descent)
   (.childChosen descent (route descent.operation.key first rest))
 | wLatchChild {descent : Descent Key Value} {child : PageId}
  (free : self.Writable tid child) :
  Crabs sizes self tid (.childChosen descent child) (.latched (descent.down child))
 -- the key is there already, or is not there
 | unchanged {descent : Descent Key Value} {entries : List (Key × Value)}
  (leaf : self.tree.node descent.page = some (.leaf entries))
  (same : descent.operation.apply entries = none) :
  Crabs sizes self tid (.descending descent) (.finishing descent.rootHeld descent.latched)
 | settled {descent : Descent Key Value} {node : BPlusTreePage Key Value}
  (found : self.tree.node descent.page = some node)
  (test : descent.operation.unsettled sizes (self.tree.root = some descent.page) node = false) :
  Crabs sizes self tid (.changed descent) (.finishing descent.rootHeld descent.latched)
 | unlatch {descent : Descent Key Value} {page : PageId} (member : page ∈ descent.others) :
  Crabs sizes self tid (.changed descent)
   (.changed { descent with others := descent.others.erase page })
 | wLatchSibling {descent : Descent Key Value} {node : BPlusTreePage Key Value}
  {key : Key} {parent left right sibling : PageId} {above : List PageId}
  (operation : descent.operation = .delete key)
  (found : self.tree.node descent.page = some node)
  (notRoot : self.tree.root ≠ some descent.page)
  (test : Operation.underflows sizes node = true)
  (pageSet : descent.pageSet = parent :: above)
  (neighbours : Neighbours self.tree parent left right)
  (sides : (descent.page = left ∧ sibling = right) ∨ (descent.page = right ∧ sibling = left))
  (free : self.Writable tid sibling) :
  Crabs sizes self tid (.changed descent)
   (.paired { descent with others := sibling :: descent.others } parent left right)
 -- the parent, or the root latch, is needed but was released
 | noParent {descent : Descent Key Value} {node : BPlusTreePage Key Value}
  (found : self.tree.node descent.page = some node)
  (test : descent.operation.unsettled sizes (self.tree.root = some descent.page) node = true)
  (empty : descent.pageSet = [])
  (root : ¬ (descent.rootHeld = true ∧ self.tree.root = some descent.page)) :
  Crabs sizes self tid (.changed descent) (.stranded descent)
 | noRootLatch {descent : Descent Key Value} {merged : BPlusTree Key Value}
  {parent left right : PageId} (isRoot : self.tree.root = some parent)
  (merge : self.tree.coalesce parent left right = some merged)
  (single : merged.node parent = some (.inner left []))
  (root : descent.rootHeld = false) :
  Crabs sizes self tid (.paired descent parent left right) (.stranded descent)
 | unlockRoot {rootHeld : Bool} {pages : List PageId} :
  Crabs sizes self tid (.finishing rootHeld pages) (.finishing false pages)
 | unlockPage {rootHeld : Bool} {page : PageId} {pages : List PageId} (member : page ∈ pages) :
  Crabs sizes self tid (.finishing rootHeld pages) (.finishing rootHeld (pages.erase page))
 | leave : Crabs sizes self tid (.finishing false []) .finished

/-- The steps of `Insert` and `Remove` that change the tree; `new` is the next page id. -/
inductive Writes (sizes : PageSizes) (tree : BPlusTree Key Value) (new : PageId) :
 Thread Key Value → BPlusTree Key Value → PageId → Thread Key Value → Prop
 | startNewTree {key : Key} {value : Value} (empty : tree.root = none) :
  Writes sizes tree new (.rootWLocked (.insert key value))
   ((tree.setPage new (.leaf [(key, value)])).setRoot (some new)) (new + 1)
   (.finishing true [])
 | changeLeaf {descent : Descent Key Value} {entries others : List (Key × Value)}
  (leaf : tree.node descent.page = some (.leaf entries))
  (apply : descent.operation.apply entries = some others) :
  Writes sizes tree new (.descending descent) (tree.setPage descent.page (.leaf others)) new
   (.changed descent)
 | split {descent : Descent Key Value} {node : BPlusTreePage Key Value}
  {next : BPlusTree Key Value} {key : Key} {value : Value} {parent : PageId}
  {above : List PageId} {position : ℕ} (operation : descent.operation = .insert key value)
  (found : tree.node descent.page = some node) (test : Operation.overflows sizes node = true)
  (pageSet : descent.pageSet = parent :: above)
  (split : tree.split parent descent.page new position = some next) :
  Writes sizes tree new (.changed descent) next (new + 1) (.changed (descent.up parent above))
 | splitRoot {descent : Descent Key Value} {node : BPlusTreePage Key Value}
  {next : BPlusTree Key Value} {key : Key} {value : Value} {position : ℕ}
  (operation : descent.operation = .insert key value)
  (found : tree.node descent.page = some node) (test : Operation.overflows sizes node = true)
  (root : descent.rootHeld = true) (isRoot : tree.root = some descent.page)
  (split : tree.splitRoot descent.page new (new + 1) position = some next) :
  Writes sizes tree new (.changed descent) next (new + 2)
   (.finishing descent.rootHeld descent.latched)
 | clear {descent : Descent Key Value} {key : Key} (operation : descent.operation = .delete key)
  (leaf : tree.node descent.page = some (.leaf [])) (root : descent.rootHeld = true)
  (isRoot : tree.root = some descent.page) :
  Writes sizes tree new (.changed descent) ((tree.deletePage descent.page).setRoot none) new
   (.finishing descent.rootHeld descent.latched)
 -- the sibling can spare one entry or child
 | redistribute {descent : Descent Key Value} {lower upper : BPlusTreePage Key Value}
  {next : BPlusTree Key Value} {parent left right : PageId}
  (leftFound : tree.node left = some lower) (rightFound : tree.node right = some upper)
  (spare : if descent.page = left then upper.getMinSize sizes < upper.getSize
   else lower.getMinSize sizes < lower.getSize)
  (move : tree.redistribute parent left right
   (if descent.page = left then lower.getSize + 1 else lower.getSize - 1) = some next) :
  Writes sizes tree new (.paired descent parent left right) next new
   (.finishing descent.rootHeld descent.latched)
 | coalesce {descent : Descent Key Value} {lower upper : BPlusTreePage Key Value}
  {merged : BPlusTree Key Value} {parent left right : PageId} {above : List PageId}
  (leftFound : tree.node left = some lower) (rightFound : tree.node right = some upper)
  (spare : ¬ if descent.page = left then upper.getMinSize sizes < upper.getSize
   else lower.getMinSize sizes < lower.getSize)
  (pageSet : descent.pageSet = parent :: above)
  (merge : tree.coalesce parent left right = some merged)
  (several : ¬ (tree.root = some parent ∧ merged.node parent = some (.inner left []))) :
  Writes sizes tree new (.paired descent parent left right) merged new
   (.changed (descent.up parent above))
 | adjustRoot {descent : Descent Key Value} {lower upper : BPlusTreePage Key Value}
  {merged : BPlusTree Key Value} {parent left right : PageId}
  (leftFound : tree.node left = some lower) (rightFound : tree.node right = some upper)
  (spare : ¬ if descent.page = left then upper.getMinSize sizes < upper.getSize
   else lower.getMinSize sizes < lower.getSize)
  (isRoot : tree.root = some parent)
  (merge : tree.coalesce parent left right = some merged)
  (single : merged.node parent = some (.inner left []))
  (root : descent.rootHeld = true) :
  Writes sizes tree new (.paired descent parent left right) (merged.adjustRoot parent left) new
   (.finishing descent.rootHeld descent.latched)

/-- The entries of the tree when the call begins, and what is left of them later. -/
def System.since (self : System Tid Key Value) (tid : Tid) :
 Thread Key Value → Key → Value → Prop
 | .idle => Stored self.tree
 | _ => self.lasting tid

variable [DecidableEq Tid]

inductive Step (sizes : PageSizes) (self : System Tid Key Value) (tid : Tid) :
 System Tid Key Value → Prop
 | reads {thread : Thread Key Value} (taken : Reads self tid (self.thread tid) thread) :
  Step sizes self tid { self with
   thread := update self.thread tid thread
   lasting := update self.lasting tid (self.since tid (self.thread tid)) }
 | crabs {thread : Thread Key Value} (taken : Crabs sizes self tid (self.thread tid) thread) :
  Step sizes self tid { self with thread := update self.thread tid thread }
 | writes {tree : BPlusTree Key Value} {new : PageId} {thread : Thread Key Value}
  (taken : Writes sizes self.tree self.nextPageId (self.thread tid) tree new thread) :
  Step sizes self tid
   { tree := tree
     nextPageId := new
     thread := update self.thread tid thread
     lasting := fun other key value => self.lasting other key value ∧ Stored tree key value }

end MyNotes.Cmu15445
