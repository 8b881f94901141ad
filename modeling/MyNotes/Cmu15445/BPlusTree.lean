/-
The B+ tree of project 2 of 2022 under latch crabbing: `FindLeaf`, `GetValue`, `Insert` and
`Remove`.

A page is read and written in place, under its latch, and its size is the number of its
entries or children.  The notes give `Insert` and `Remove` in prose: where a full page is cut,
with which sibling a small page is paired and when latches that are no longer needed go are
left open here.  The pages of the page set that are released while a thread descends go in
any order.
-/

import MyNotes.Cmu15445.BufferPool
import MyNotes.Library.PagedTree

namespace MyNotes.Cmu15445

open Library.PagedTree

variable {Key Value Tid : Type}

/-! ### Pages -/

abbrev BPlusTreePage (Key Value : Type) := Node Key Value PageId

abbrev BPlusTree (Key Value : Type) := Tree Key Value PageId

/-- The bounds on sizes with which a tree is created. -/
structure PageSizes where
 leafMaxSize : ℕ
 internalMaxSize : ℕ
 leafMinSize : ℕ
 internalMinSize : ℕ

namespace BPlusTreePage

def getSize : BPlusTreePage Key Value → ℕ
 | .leaf entries => entries.length
 | .inner _ rest => rest.length + 1

def getMinSize (sizes : PageSizes) : BPlusTreePage Key Value → ℕ
 | .leaf _ => sizes.leafMinSize
 | .inner .. => sizes.internalMinSize

/-- Keep `position` entries or children; the others go to a new page on the right.  A leaf's
separator is copied from the new page, an internal page's is taken out. -/
def split (position : ℕ) :
 BPlusTreePage Key Value → Option (BPlusTreePage Key Value × Key × BPlusTreePage Key Value)
 | .leaf entries =>
  match entries.take position, entries.drop position with
  | lower :: more, (key, value) :: upper =>
   some (.leaf (lower :: more), key, .leaf ((key, value) :: upper))
  | _, _ => none
 | .inner first rest =>
  match rest.drop (position - 1) with
  | (separator, child) :: upper =>
   some (.inner first (rest.take (position - 1)), separator, .inner child upper)
  | [] => none

/-- The entries or children of the right page go behind those of the left one. -/
def merge : BPlusTreePage Key Value → Key → BPlusTreePage Key Value →
 Option (BPlusTreePage Key Value)
 | .leaf lower, _, .leaf upper => some (.leaf (lower ++ upper))
 | .inner first lower, separator, .inner child upper =>
  some (.inner first (lower ++ (separator, child) :: upper))
 | _, _, _ => none

variable [LinearOrder Key]

def lookup (key : Key) (entries : List (Key × Value)) : Option Value :=
 (entries.find? fun entry => entry.1 = key).map Prod.snd

/-- The new entry stands before the first whose key is not lower. -/
def insertEntry (key : Key) (value : Value) (entries : List (Key × Value)) :
 List (Key × Value) :=
 entries.takeWhile (·.1 < key) ++ (key, value) :: entries.dropWhile (·.1 < key)

def removeEntry (key : Key) (entries : List (Key × Value)) : List (Key × Value) :=
 entries.filter (·.1 ≠ key)

end BPlusTreePage

/-! ### Trees -/

namespace BPlusTree

section

variable (self : BPlusTree Key Value)

def setPage (page : PageId) (node : BPlusTreePage Key Value) : BPlusTree Key Value :=
 { self with node := Function.update self.node page (some node) }

def deletePage (page : PageId) : BPlusTree Key Value :=
 { self with node := Function.update self.node page none }

def setRoot (root : Option PageId) : BPlusTree Key Value :=
 { self with root := root }

end

/-- The separators of a parent up to a child, and those behind it. -/
def around (child : PageId) :
 PageId → List (Key × PageId) → Option (List (Key × PageId) × List (Key × PageId))
 | first, rest =>
  if first = child then some ([], rest)
  else match rest with
   | [] => none
   | (separator, second) :: rest =>
    (around child second rest).map fun sides => ((separator, second) :: sides.1, sides.2)

/-- A page is split, and the separator of the new page goes into the parent. -/
def split (self : BPlusTree Key Value) (parent page new : PageId) (position : ℕ) :
 Option (BPlusTree Key Value) := do
 let .inner first rest ← self.node parent | none
 let (before, after) ← around page first rest
 let whole ← self.node page
 let (left, separator, right) ← BPlusTreePage.split position whole
 return ((self.setPage parent (.inner first (before ++ (separator, new) :: after))).setPage
  page left).setPage new right

section

variable (self : BPlusTree Key Value)

def splitRoot (page root new : PageId) (position : ℕ) : Option (BPlusTree Key Value) :=
 split ((self.setPage root (.inner page [])).setRoot (some root)) root page new position

/-- Two neighbours are merged into the left one, and the parent loses the separator. -/
def coalesce (parent left right : PageId) : Option (BPlusTree Key Value) := do
 let .inner first rest ← self.node parent | none
 let (before, (separator, other) :: after) ← around left first rest | none
 let lower ← self.node left
 let upper ← self.node right
 let whole ← BPlusTreePage.merge lower separator upper
 if other = right then
  return ((self.setPage parent (.inner first (before ++ after))).setPage left whole).deletePage
   right
 else none

/-- Two neighbours share their entries or children anew: `position` of them are on the left. -/
def redistribute (parent left right : PageId) (position : ℕ) : Option (BPlusTree Key Value) := do
 let merged ← self.coalesce parent left right
 split merged parent left right position

def adjustRoot (root child : PageId) : BPlusTree Key Value :=
 (self.deletePage root).setRoot (some child)

end

end BPlusTree

/-! ### Operations -/

inductive Operation (Key Value : Type) where
 | insert (key : Key) (value : Value)
 | delete (key : Key)

namespace Operation

def key : Operation Key Value → Key
 | .insert key _ => key
 | .delete key => key

/-- The entries of the leaf after the operation, if it changes them. -/
def apply [LinearOrder Key] (entries : List (Key × Value)) :
 Operation Key Value → Option (List (Key × Value))
 | .insert key value =>
  match BPlusTreePage.lookup key entries with
  | none => some (BPlusTreePage.insertEntry key value entries)
  | some _ => none
 | .delete key =>
  match BPlusTreePage.lookup key entries with
  | none => none
  | some _ => some (BPlusTreePage.removeEntry key entries)

/-- `FindLeaf` releases the ancestors of this page. -/
def safe (sizes : PageSizes) : Operation Key Value → BPlusTreePage Key Value → Bool
 | .insert .., .leaf entries => entries.length < sizes.leafMaxSize - 1
 | .insert .., .inner _ rest => rest.length + 1 < sizes.internalMaxSize
 | .delete _, page => page.getMinSize sizes < page.getSize

/-- `FindLeaf` releases the root latch. -/
def safeRoot (sizes : PageSizes) : Operation Key Value → BPlusTreePage Key Value → Bool
 | .insert key value, page => (insert key value).safe sizes page
 | .delete _, page => 2 < page.getSize

/-- A leaf is split when it is full after the insertion, an internal page when it was full
before it. -/
def overflows (sizes : PageSizes) : BPlusTreePage Key Value → Bool
 | .leaf entries => sizes.leafMaxSize ≤ entries.length
 | .inner _ rest => sizes.internalMaxSize < rest.length + 1

def underflows (sizes : PageSizes) (page : BPlusTreePage Key Value) : Bool :=
 page.getSize < page.getMinSize sizes

/-- What is left to do at a page after it was changed: the parent has to change, or the root. -/
def unsettled (sizes : PageSizes) (isRoot : Bool) :
 Operation Key Value → BPlusTreePage Key Value → Bool
 | .insert .., page => overflows sizes page
 | .delete _, page =>
  if isRoot then match page with
   | .leaf [] => true
   | _ => false
  else underflows sizes page

end Operation

end MyNotes.Cmu15445
