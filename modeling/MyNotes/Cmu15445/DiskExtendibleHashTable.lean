/-
The disk extendible hash table: `GetValue`, `Insert` and `Remove`.

Pages are always available from the pool, so a new page gets the next id, and a
guard reads or writes its page in place.  `DeletePage` of a bucket whose guard is
still held is refused by the pool, so the merge of `Remove` deletes nothing.  The
loops that need not end have fuel, and running out of it is a fault.
-/

import MyNotes.Cmu15445.ExtendibleHTablePages

namespace MyNotes.Cmu15445

structure DiskExtendibleHashTable (K V : Type) where
 hash : K → UInt32
 directoryMaxDepth : ℕ
 bucketMaxSize : ℕ
 headerPage : ExtendibleHTableHeaderPage
 directories : PageId → ExtendibleHTableDirectoryPage
 buckets : PageId → ExtendibleHTableBucketPage K V
 nextPageId : PageId

/-- `UpdateDirectoryMapping`, whose body is not in the notes: the directory, the slot,
the page id, the local depth and the mask. -/
abbrev DirectoryUpdate :=
 ExtendibleHTableDirectoryPage → ℕ → PageId → ℕ → ℕ → ExtendibleHTableDirectoryPage

namespace DiskExtendibleHashTable

variable {K V : Type} [DecidableEq K]

def new (hash : K → UInt32) (headerMaxDepth directoryMaxDepth bucketMaxSize : ℕ) :
 DiskExtendibleHashTable K V :=
 { hash := hash
   directoryMaxDepth := directoryMaxDepth
   bucketMaxSize := bucketMaxSize
   headerPage := .init headerMaxDepth
   directories := fun _ => .init directoryMaxDepth
   buckets := fun _ => .init bucketMaxSize
   nextPageId := 0 }

section

variable (self : DiskExtendibleHashTable K V)

def setDirectory (pageId : PageId)
 (directory : ExtendibleHTableDirectoryPage) : DiskExtendibleHashTable K V :=
 { self with directories := Function.update self.directories pageId directory }

def setBucket (pageId : PageId)
 (bucket : ExtendibleHTableBucketPage K V) : DiskExtendibleHashTable K V :=
 { self with buckets := Function.update self.buckets pageId bucket }

def getValue (key : K) : Except Fault (Option V) := do
 let hash := self.hash key
 let directoryIndex := self.headerPage.hashToDirectoryIndex hash
 let directoryPageId := self.headerPage.getDirectoryPageId directoryIndex
 if directoryPageId = invalidPageId then return none
 let directoryPage := self.directories directoryPageId
 let bucketPageId ← directoryPage.getBucketPageId (directoryPage.hashToBucketIndex hash)
 if bucketPageId = invalidPageId then return none
 return (self.buckets bucketPageId).lookup key

end

/-! ### Insert -/

def insertToNewBucket (self : DiskExtendibleHashTable K V) (directoryPageId : PageId)
 (bucketIdx : ℕ) (key : K) (value : V) :
 Except Fault (DiskExtendibleHashTable K V × Bool) := do
 let bucketPageId := self.nextPageId
 let bucketPage := ExtendibleHTableBucketPage.init self.bucketMaxSize
 let directory ← (self.directories directoryPageId).setBucketPageId bucketIdx bucketPageId
 let (bucketPage, done) := bucketPage.insert key value
 let self := { self with nextPageId := bucketPageId + 1 }
 return ((self.setDirectory directoryPageId directory).setBucket bucketPageId bucketPage, done)

def insertToNewDirectory (self : DiskExtendibleHashTable K V) (directoryIdx : ℕ) (key : K)
 (value : V) : Except Fault (DiskExtendibleHashTable K V × Bool) := do
 let directoryPageId := self.nextPageId
 let directoryPage := ExtendibleHTableDirectoryPage.init self.directoryMaxDepth
 let headerPage ← self.headerPage.setDirectoryPageId directoryIdx directoryPageId
 let self := { self with headerPage := headerPage, nextPageId := directoryPageId + 1 }
 let self := self.setDirectory directoryPageId directoryPage
 self.insertToNewBucket directoryPageId (directoryPage.hashToBucketIndex (self.hash key)) key
  value

/-- The directory of a split: the split image gets the new page, and the two slots
the next local depth. -/
def splitDirectory (directory : ExtendibleHTableDirectoryPage) (bucketIndex : ℕ)
 (splitBucketPageId : PageId) : Except Fault ExtendibleHTableDirectoryPage := do
 let splitBucketIndex := directory.getSplitImageIndex bucketIndex
 let newLocalDepth := (← directory.getLocalDepth bucketIndex) + 1
 let directory ← directory.setLocalDepth splitBucketIndex newLocalDepth
 let directory ← directory.setLocalDepth bucketIndex newLocalDepth
 directory.setBucketPageId splitBucketIndex splitBucketPageId

/-- One entry of a split bucket goes where the directory now sends it. -/
def redistribute (hash : K → UInt32) (directory : ExtendibleHTableDirectoryPage)
 (bucketPageId : PageId)
 (pages : ExtendibleHTableBucketPage K V × ExtendibleHTableBucketPage K V) (entry : K × V) :
 Except Fault (ExtendibleHTableBucketPage K V × ExtendibleHTableBucketPage K V) := do
 let pageId ← directory.getBucketPageId (directory.hashToBucketIndex (hash entry.1))
 if pageId = bucketPageId then return ((pages.1.insert entry.1 entry.2).1, pages.2)
 else return (pages.1, (pages.2.insert entry.1 entry.2).1)

def splitBucket (self : DiskExtendibleHashTable K V) (directoryPageId : PageId)
 (directory : ExtendibleHTableDirectoryPage) (bucketIndex : ℕ) (bucketPageId : PageId) :
 Except Fault (DiskExtendibleHashTable K V) := do
 let splitBucketPageId := self.nextPageId
 let empty := ExtendibleHTableBucketPage.init self.bucketMaxSize
 let directory ← splitDirectory directory bucketIndex splitBucketPageId
 let (bucketPage, splitBucketPage) ←
  (self.buckets bucketPageId).array.foldlM (redistribute self.hash directory bucketPageId)
   (empty, empty)
 let self := { self with nextPageId := splitBucketPageId + 1 }
 return ((self.setDirectory directoryPageId directory).setBucket bucketPageId
  bucketPage).setBucket splitBucketPageId splitBucketPage

/-- The body of `Insert`; no answer means that it calls itself again. -/
def insertOnce (self : DiskExtendibleHashTable K V) (key : K) (value : V) :
 Except Fault (DiskExtendibleHashTable K V × Option Bool) := do
 let hash := self.hash key
 let directoryIndex := self.headerPage.hashToDirectoryIndex hash
 let directoryPageId := self.headerPage.getDirectoryPageId directoryIndex
 if directoryPageId = invalidPageId then
  let (self, done) ← self.insertToNewDirectory directoryIndex key value
  return (self, some done)
 let directoryPage := self.directories directoryPageId
 let bucketIndex := directoryPage.hashToBucketIndex hash
 let bucketPageId ← directoryPage.getBucketPageId bucketIndex
 if bucketPageId = invalidPageId then
  let (self, done) ← self.insertToNewBucket directoryPageId bucketIndex key value
  return (self, some done)
 let bucketPage := self.buckets bucketPageId
 if (bucketPage.lookup key).isSome then return (self, some false)
 if !bucketPage.isFull then
  let (bucketPage, done) := bucketPage.insert key value
  return (self.setBucket bucketPageId bucketPage, some done)
 if (← directoryPage.getLocalDepth bucketIndex) = directoryPage.globalDepth then
  if directoryPage.globalDepth ≥ directoryPage.maxDepth then return (self, some false)
  let self ← self.splitBucket directoryPageId directoryPage.incrGlobalDepth bucketIndex
   bucketPageId
  return (self, none)
 let self ← self.splitBucket directoryPageId directoryPage bucketIndex bucketPageId
 return (self, none)

def insertFrom : ℕ → DiskExtendibleHashTable K V → K → V →
 Except Fault (DiskExtendibleHashTable K V × Bool)
 | 0, _, _, _ => .error .outOfFuel
 | fuel + 1, self, key, value => do
  match ← self.insertOnce key value with
  | (self, some done) => return (self, done)
  | (self, none) => insertFrom fuel self key value

/-- Each call of `Insert` by itself is on a deeper bucket. -/
def insert (self : DiskExtendibleHashTable K V) (key : K) (value : V) :
 Except Fault (DiskExtendibleHashTable K V × Bool) :=
 insertFrom (self.directoryMaxDepth + 2) self key value

/-! ### Remove -/

/-- All slots of the merged class get the kept page. -/
def remap (update : DirectoryUpdate) (directory : ExtendibleHTableDirectoryPage)
 (globalDepth localDepth maskIdx : ℕ) (pageId : PageId) : ExtendibleHTableDirectoryPage :=
 (List.range (1 <<< (globalDepth - localDepth))).foldl
  (fun directory i => update directory ((i <<< localDepth) + maskIdx) pageId localDepth 0)
  directory

/-- The merge loop of `Remove`, with the page that is checked and its local depth. -/
def mergeLoop (update : DirectoryUpdate) (buckets : PageId → ExtendibleHTableBucketPage K V)
 (bucketIndex globalDepth : ℕ) :
 ℕ → ExtendibleHTableDirectoryPage → PageId → ℕ →
  Except Fault ExtendibleHTableDirectoryPage
 | _, directory, _, 0 => return directory
 | 0, _, _, _ + 1 => .error .outOfFuel
 | fuel + 1, directory, checkPageId, localDepth + 1 => do
  let mergeBucketIndex := bucketIndex ^^^ (1 <<< localDepth)
  let mergeLocalDepth ← directory.getLocalDepth mergeBucketIndex
  let mergePageId ← directory.getBucketPageId mergeBucketIndex
  if mergeLocalDepth ≠ localDepth + 1 ∨
   (!(buckets checkPageId).isEmpty && !(buckets mergePageId).isEmpty) = true then
   return directory
  let checkPageId := if (buckets checkPageId).isEmpty then mergePageId else checkPageId
  let directory ← directory.decrLocalDepth bucketIndex
  let localDepth ← directory.getLocalDepth bucketIndex
  let localDepthMask ← directory.getLocalDepthMask bucketIndex
  mergeLoop update buckets bucketIndex globalDepth fuel
   (remap update directory globalDepth localDepth (bucketIndex &&& localDepthMask)
    checkPageId)
   checkPageId localDepth

/-- `while (CanShrink()) DecrGlobalDepth()`, at most `global_depth_` times. -/
def shrinkLoop : ℕ → ExtendibleHTableDirectoryPage → ExtendibleHTableDirectoryPage
 | 0, directory => directory
 | fuel + 1, directory =>
  if directory.canShrink then shrinkLoop fuel directory.decrGlobalDepth else directory

def remove (update : DirectoryUpdate) (self : DiskExtendibleHashTable K V) (key : K) :
 Except Fault (DiskExtendibleHashTable K V × Bool) := do
 let hash := self.hash key
 let directoryIndex := self.headerPage.hashToDirectoryIndex hash
 let directoryPageId := self.headerPage.getDirectoryPageId directoryIndex
 if directoryPageId = invalidPageId then return (self, false)
 let directoryPage := self.directories directoryPageId
 let bucketIndex := directoryPage.hashToBucketIndex hash
 let bucketPageId ← directoryPage.getBucketPageId bucketIndex
 if bucketPageId = invalidPageId then return (self, false)
 let (bucketPage, res) := (self.buckets bucketPageId).remove key
 let self := self.setBucket bucketPageId bucketPage
 if !res then return (self, false)
 let localDepth ← directoryPage.getLocalDepth bucketIndex
 let directoryPage ← mergeLoop update self.buckets bucketIndex directoryPage.globalDepth
  localDepth directoryPage bucketPageId localDepth
 return (self.setDirectory directoryPageId (shrinkLoop directoryPage.globalDepth directoryPage),
  true)

/-! ### Calls -/

inductive Operation (K V : Type) where
 | insert (key : K) (value : V)
 | remove (key : K)
 | getValue (key : K)
 deriving DecidableEq

inductive Result (V : Type) where
 | done (success : Bool)
 | found (value : Option V)
 deriving DecidableEq

def perform (update : DirectoryUpdate) (self : DiskExtendibleHashTable K V) :
 Operation K V → Except Fault (DiskExtendibleHashTable K V × Result V)
 | .insert key value => do
  let (self, done) ← self.insert key value
  return (self, .done done)
 | .remove key => do
  let (self, done) ← self.remove update key
  return (self, .done done)
 | .getValue key => do
  let value ← self.getValue key
  return (self, .found value)

end DiskExtendibleHashTable

end MyNotes.Cmu15445
