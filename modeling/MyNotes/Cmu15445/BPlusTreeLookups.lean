/-
Lookups in the B+ tree while other threads change it.

A reader that has latched a page on the path of its key is found there again by every change,
since nobody changes a page that it has latched.  The only step that may lose the path is the
first one: `FindLeaf` gives the root latch back before it latches the root page.
-/

import MyNotes.Cmu15445.BPlusTreeCrabbing
import MyNotes.Library.Transition

namespace MyNotes.Cmu15445

open Library.PagedTree Library.Transition Function List Int Descent

variable {Key Value Tid : Type}

/-! ### Latches exclude each other -/

namespace System

structure Exclusive (system : System Tid Key Value) : Prop where
 pages : ∀ tid other, tid ≠ other → ∀ page ∈ (system.thread tid).writes,
  page ∉ (system.thread other).writes ∧ page ∉ (system.thread other).reads
 root : ∀ tid other, tid ≠ other → (system.thread tid).writesRoot = true →
  (system.thread other).writesRoot = false ∧ (system.thread other).readsRoot = false

/-- The latches of a thread after a step are old ones, or they were free and those for writing
are on pages of the tree. -/
structure Takes (system : System Tid Key Value) (tid : Tid) (after : Thread Key Value) : Prop where
 writes : ∀ page ∈ after.writes, page ∈ (system.thread tid).writes ∨
  system.Writable tid page ∧ system.tree.node page ≠ none
 reads : ∀ page ∈ after.reads, page ∈ (system.thread tid).reads ∨ system.Readable tid page
 writesRoot : after.writesRoot = true →
  (system.thread tid).writesRoot = true ∨ system.RootWritable tid
 readsRoot : after.readsRoot = true →
  (system.thread tid).readsRoot = true ∨ system.RootReadable tid

variable {system next : System Tid Key Value} {tid : Tid} {after : Thread Key Value}

theorem Exclusive.step [DecidableEq Tid] (exclusive : system.Exclusive)
 (moved : next.thread = update system.thread tid after)
 (takes : system.Takes tid after) : next.Exclusive := by
 constructor
 · intro first second different page member
   rw [moved] at member ⊢
   by_cases here : first = tid
   · subst here
     rw [update_self] at member
     rw [update_of_ne different.symm]
     rcases takes.writes page member with old | ⟨free, -⟩
     · exact exclusive.pages first second different page old
     · exact free second different.symm
   · rw [update_of_ne here] at member
     by_cases there : second = tid
     · subst there
       rw [update_self]
       obtain ⟨notWrites, notReads⟩ := exclusive.pages first second different page member
       constructor
       · intro mine
         rcases takes.writes page mine with old | ⟨free, -⟩
         · exact notWrites old
         · exact (free first different).1 member
       · intro mine
         rcases takes.reads page mine with old | free
         · exact notReads old
         · exact free first different member
     · rw [update_of_ne there]
       exact exclusive.pages first second different page member
 · intro first second different held
   rw [moved] at held ⊢
   by_cases here : first = tid
   · subst here
     rw [update_self] at held
     rw [update_of_ne different.symm]
     rcases takes.writesRoot held with old | free
     · exact exclusive.root first second different old
     · exact free second different.symm
   · rw [update_of_ne here] at held
     by_cases there : second = tid
     · subst there
       rw [update_self]
       obtain ⟨notWrites, notReads⟩ := exclusive.root first second different held
       constructor
       · refine Bool.eq_false_iff.mpr fun mine => ?_
         rcases takes.writesRoot mine with old | free
         · cases notWrites.symm.trans old
         · cases held.symm.trans (free first different).1
       · refine Bool.eq_false_iff.mpr fun mine => ?_
         rcases takes.readsRoot mine with old | free
         · cases notReads.symm.trans old
         · cases held.symm.trans (free first different)
     · rw [update_of_ne there]
       exact exclusive.root first second different held

end System

variable [LinearOrder Key] {sizes : PageSizes} {system : System Tid Key Value} {tid : Tid}
 {before after : Thread Key Value} {tree next : BPlusTree Key Value}

theorem Reads.takes (taken : Reads system tid (system.thread tid) after) :
 system.Takes tid after := by
 generalize same : system.thread tid = before at taken
 cases taken with
 | getValue | noRoot | deleted | rUnlockRoot | rUnlatchLeaf => exact ⟨nofun, nofun, nofun, nofun⟩
 | rLockRoot free => exact ⟨nofun, nofun, nofun, fun _ => .inr free⟩
 | fetchRoot => exact ⟨nofun, nofun, nofun, fun _ => .inl (by rw [same]; rfl)⟩
 | rLatchRoot free =>
  refine ⟨nofun, fun page member => .inr ?_, nofun, nofun⟩
  rw [mem_singleton.mp member]
  exact free
 | fetchChild | lookup =>
  refine ⟨nofun, fun page member => .inl ?_, nofun, nofun⟩
  rw [same]
  exact member
 | rLatchChild free =>
  refine ⟨nofun, fun page member => ?_, nofun, nofun⟩
  rcases mem_cons.mp member with old | new
  · rw [same, old]
    exact .inl (mem_singleton_self _)
  · simp_all
 | rUnlatchParent =>
  refine ⟨nofun, fun page member => .inl ?_, nofun, nofun⟩
  rw [same]
  exact mem_cons_of_mem _ member

omit [LinearOrder Key] in
theorem System.Takes.of_subset (here : system.thread tid = before)
 (writes : ∀ page ∈ after.writes, page ∈ before.writes) (reads : after.reads = [])
 (root : after.writesRoot = true → before.writesRoot = true)
 (noRoot : after.readsRoot = false) : system.Takes tid after := by
 subst here
 refine ⟨fun page member => .inl (writes page member), fun page member => ?_,
  fun held => .inl (root held), fun held => ?_⟩
 · rw [reads] at member
   cases member
 · cases noRoot.symm.trans held

variable {page : PageId}

section

omit [LinearOrder Key]

theorem System.Takes.of_page (here : system.thread tid = before) (free : system.Writable tid page)
 (present : system.tree.node page ≠ none)
 (writes : ∀ other ∈ after.writes, other = page ∨ other ∈ before.writes)
 (reads : after.reads = []) (root : after.writesRoot = true → before.writesRoot = true)
 (noRoot : after.readsRoot = false) : system.Takes tid after := by
 subst here
 refine ⟨fun other member => ?_, fun other member => ?_, fun held => .inl (root held),
  fun held => ?_⟩
 · rcases writes other member with new | old
   · exact .inr (new ▸ ⟨free, present⟩)
   · exact .inl old
 · rw [reads] at member
   cases member
 · cases noRoot.symm.trans held

theorem Descent.up_latched {descent : Descent Key Value} {parent : PageId} {above : List PageId}
 (pageSet : descent.pageSet = parent :: above) :
 ∀ page ∈ (descent.up parent above).latched, page ∈ descent.latched := by
 intro page member
 simp only [up, latched, pageSet, mem_cons, mem_append] at member ⊢
 grind

theorem Neighbours.isChild {parent left right : PageId}
 (neighbours : Neighbours tree parent left right) :
 IsChild tree parent left ∧ IsChild tree parent right := by
 obtain ⟨first, before, separator, after, inner, last⟩ := neighbours
 refine ⟨⟨_, _, inner, ?_⟩, _, _, inner, ?_⟩
 · rw [children_append, ← last]
   exact mem_append_left _ lastChild_mem
 · rw [children_append]
   simp

end

theorem Crabs.takes (sound : Sound system.tree)
 (good : (system.thread tid).Good sizes system.tree)
 (taken : Crabs sizes system tid (system.thread tid) after) : system.Takes tid after := by
 generalize same : system.thread tid = before at good taken
 cases taken with
 | call | leave => exact ⟨nofun, nofun, nofun, nofun⟩
 | wLockRoot free => exact ⟨nofun, nofun, fun _ => .inr free, nofun⟩
 | nothing | fetchRoot => exact .of_subset same (fun _ member => member) rfl id rfl
 | isSafe | notSafe | released | fetchChild | unchanged | settled | noParent | noRootLatch =>
  exact .of_subset same (fun _ member => member) rfl id rfl
 | releaseRoot | unlockRoot => exact .of_subset same (fun _ member => member) rfl nofun rfl
 | @releasePage descent page inside =>
  refine .of_subset same (fun other member => ?_) rfl id rfl
  rcases mem_cons.mp member with here | later
  · rw [here]
    exact descent.page_mem_latched
  · rcases mem_append.mp later with above | other
    · exact mem_latched_of_pageSet (mem_of_mem_erase above)
    · exact mem_latched_of_others other
 | @unlatch descent page inside =>
  refine .of_subset same (fun other member => ?_) rfl id rfl
  rcases mem_cons.mp member with here | later
  · rw [here]
    exact descent.page_mem_latched
  · rcases mem_append.mp later with above | other
    · exact mem_latched_of_pageSet above
    · exact mem_latched_of_others (mem_of_mem_erase other)
 | unlockPage => exact .of_subset same (fun _ member => mem_of_mem_erase member) rfl id rfl
 | wLatchRoot free =>
  exact .of_page same free (sound.rooted good)
   (fun _ member => .inl (mem_singleton.mp member)) rfl (fun _ => rfl) rfl
 | wLatchChild free =>
  obtain ⟨-, -, first, rest, inner, chosen⟩ := good
  have present := sound.present ⟨first, rest, inner, chosen ▸ route_mem⟩
  exact .of_page same free present (fun _ member => mem_cons.mp member) rfl id rfl
 | @wLatchSibling descent node key parent left right sibling above _ _ _ _ _ neighbours sides
  free =>
  have present : system.tree.node sibling ≠ none := by
   obtain ⟨isLeft, isRight⟩ := neighbours.isChild
   rcases sides with ⟨-, same⟩ | ⟨-, same⟩
   · exact same ▸ sound.present isRight
   · exact same ▸ sound.present isLeft
  refine .of_page same free present (fun other member => ?_) rfl id rfl
  rcases mem_cons.mp member with here | later
  · rw [here]
    exact .inr descent.page_mem_latched
  · rcases mem_append.mp later with above | other
    · exact .inr (mem_latched_of_pageSet above)
    · exact (mem_cons.mp other).imp_right mem_latched_of_others

theorem Writes.takes {new newer : PageId}
 (taken : Writes sizes tree new (system.thread tid) next newer after) :
 system.Takes tid after := by
 generalize same : system.thread tid = before at taken
 cases taken with
 | startNewTree => exact .of_subset same nofun rfl (fun _ => rfl) rfl
 | changeLeaf | splitRoot | clear | redistribute | adjustRoot =>
  exact .of_subset same (fun _ member => member) rfl id rfl
 | split _ _ _ pageSet => exact .of_subset same (up_latched pageSet) rfl id rfl
 | coalesce _ _ _ pageSet => exact .of_subset same (up_latched pageSet) rfl id rfl

theorem Writes.newer_le {new newer : PageId}
 (taken : Writes sizes tree new before next newer after) : new ≤ newer := by
 cases taken with
 | startNewTree | split => exact Int.le_add_one (Int.le_refl new)
 | splitRoot => exact Int.le_add_of_nonneg_right (by decide)
 | changeLeaf | clear | redistribute | coalesce | adjustRoot => exact Int.le_refl new

theorem Reads.good (taken : Reads system tid before after) : after.Good sizes system.tree := by
 cases taken <;> trivial

/-! ### Writers -/

namespace System

/-- What holds in every run, wherever the readers are. -/
structure Crabbed (sizes : PageSizes) (system : System Tid Key Value) : Prop where
 sound : Sound system.tree
 fresh : ∀ page, system.nextPageId ≤ page → system.tree.node page = none
 known : ∀ tid, ∀ page ∈ (system.thread tid).writes, page < system.nextPageId
 exclusive : system.Exclusive
 good : ∀ tid, (system.thread tid).Good sizes system.tree
 lasting : ∀ tid key value, system.lasting tid key value → Stored system.tree key value

variable {next : System Tid Key Value}

theorem Crabbed.lt_next (crabbed : system.Crabbed sizes) (present : system.tree.node page ≠ none) :
 page < system.nextPageId :=
 not_le.mp fun new => present (crabbed.fresh page new)

variable [DecidableEq Tid]

variable (crabbed : system.Crabbed sizes)
include crabbed

theorem Crabbed.stay {lasting : Tid → Key → Value → Prop} (takes : system.Takes tid after)
 (good : after.Good sizes system.tree)
 (stored : ∀ tid key value, lasting tid key value → Stored system.tree key value) :
 ({ system with
  thread := update system.thread tid after
  lasting := lasting } : System Tid Key Value).Crabbed sizes where
 sound := crabbed.sound
 fresh := crabbed.fresh
 exclusive := crabbed.exclusive.step rfl takes
 lasting := stored
 known other page member := by
  by_cases me : other = tid
  · subst me
    simp only [update_self] at member
    rcases takes.writes page member with old | ⟨-, present⟩
    · exact crabbed.known other page old
    · exact crabbed.lt_next present
  · simp only [update_of_ne me] at member
    exact crabbed.known other page member
 good other := by
  by_cases me : other = tid
  · simp_all
  · simp only [update_of_ne me]
    exact crabbed.good other

omit [DecidableEq Tid] in
theorem Crabbed.apart {pages : List PageId} {newer : PageId} {other : Tid} (me : other ≠ tid)
 (mine : ∀ page ∈ pages,
  page ∈ (system.thread tid).writes ∨ system.nextPageId ≤ page ∧ page < newer)
 (member : page ∈ pages) :
 page ∉ (system.thread other).writes ∧
  (page ∈ (system.thread other).reads → system.tree.node page = none) := by
 rcases mine page member with held | ⟨new, -⟩
 · obtain ⟨notWrites, notReads⟩ := crabbed.exclusive.pages tid other me.symm page held
   simp_all
 · refine ⟨fun writes => ?_, fun _ => crabbed.fresh page new⟩
   exact not_le.mpr (crabbed.known other page writes) new

theorem Crabbed.write {newer : PageId}
 (taken : Writes sizes system.tree system.nextPageId (system.thread tid) tree newer after) :
 ({ tree := tree
    nextPageId := newer
    thread := update system.thread tid after
    lasting := fun other key value =>
     system.lasting other key value ∧ Stored tree key value } :
  System Tid Key Value).Crabbed sizes := by
 have effect := taken.effect crabbed.sound crabbed.fresh (crabbed.good tid)
 obtain ⟨pages, changes, mine⟩ := effect.changes
 have takes : system.Takes tid after := taken.takes
 have bound := taken.newer_le
 have below {page : PageId} (old : page < system.nextPageId) : page < newer :=
  lt_of_lt_of_le old bound
 exact
  { sound := changes.sound
    exclusive := crabbed.exclusive.step rfl takes
    lasting := fun _ _ _ both => both.2
    fresh := by
     intro page new
     have outside : page ∉ pages := by
      intro member
      rcases mine page member with held | ⟨-, early⟩
      · exact not_le.mpr (below (crabbed.known tid page held)) new
      · exact not_le.mpr early new
     exact (changes.node page outside).trans (crabbed.fresh page (le_trans bound new))
    known := by
     intro other page member
     by_cases me : other = tid
     · subst me
       simp only [update_self] at member
       rcases takes.writes page member with old | ⟨-, present⟩
       · exact below (crabbed.known other page old)
       · exact below (crabbed.lt_next present)
     · simp only [update_of_ne me] at member
       exact below (crabbed.known other page member)
    good := by
     intro other
     by_cases me : other = tid
     · subst me
       simp only [update_self]
       exact effect.good
     · simp only [update_of_ne me]
       refine (crabbed.good other).frame changes
        (fun page member => (crabbed.apart me mine member).1) fun held => ?_
       refine effect.root.resolve_right fun mine => ?_
       cases (crabbed.exclusive.root other tid me held).1.symm.trans mine }

omit [DecidableEq Tid] in
theorem Crabbed.since {key : Key} {value : Value} (held : system.since tid before key value) :
 Stored system.tree key value := by
 cases before with
 | idle => exact held
 | _ => exact crabbed.lasting tid key value held

theorem Crabbed.step {next : System Tid Key Value} (taken : Step sizes system tid next) :
 next.Crabbed sizes := by
 cases taken with
 | @reads after taken =>
  refine crabbed.stay taken.takes taken.good fun other key value held => ?_
  by_cases me : other = tid
  · subst me
    rw [update_self] at held
    exact crabbed.since held
  · rw [update_of_ne me] at held
    exact crabbed.lasting other key value held
 | crabs taken =>
  exact crabbed.stay (taken.takes crabbed.sound (crabbed.good tid))
   (taken.good crabbed.sound (crabbed.good tid)) crabbed.lasting
 | writes taken => exact crabbed.write taken

end System

/-! ### Readers -/

/-- A reader is on the path of its key, and its result is what the tree has had all along. -/
def Thread.Finds (tree : BPlusTree Key Value) (lasting : Key → Value → Prop) :
 Thread Key Value → Prop
 | .searching key page => OnPath tree key page
 | .childFetched key page child => OnPath tree key page ∧ Leads tree key page child
 | .crossing key page child => OnPath tree key page ∧ OnPath tree key child
 | .found key page result =>
  OnPath tree key page ∧ ∀ value, lasting key value → result = some value
 | .returned key result => ∀ value, lasting key value → result = some value
 | .failed => ∀ key value, ¬ lasting key value
 | _ => True

variable {lasting : Key → Value → Prop}

theorem Thread.Finds.present {thread : Thread Key Value} (finds : thread.Finds tree lasting)
 (sound : Sound tree) :
 ∀ page ∈ thread.reads, tree.node page ≠ none := by
 intro page member
 cases thread with
 | searching => exact mem_singleton.mp member ▸ sound.node_of_onPath finds
 | childFetched | found => exact mem_singleton.mp member ▸ sound.node_of_onPath finds.1
 | crossing =>
  rcases mem_cons.mp member with here | below
  · exact here ▸ sound.node_of_onPath finds.1
  · exact mem_singleton.mp below ▸ sound.node_of_onPath finds.2
 | _ => cases member

theorem Thread.Finds.frame {thread : Thread Key Value} {later : Key → Value → Prop}
 {pages : List PageId} (finds : thread.Finds tree lasting) (changes : Changes tree next pages)
 (apart : ∀ page ∈ pages, page ∉ thread.reads)
 (fewer : ∀ key value, later key value → lasting key value) : thread.Finds next later := by
 have path {key : Key} {page : PageId} (latched : page ∈ thread.reads)
  (path : OnPath tree key page) : OnPath next key page :=
  changes.path (fun inside => apart page inside latched) path
 cases thread with
 | searching => exact path mem_cons_self finds
 | childFetched key page child =>
  obtain ⟨here, first, rest, inner, leads⟩ := finds
  refine ⟨path mem_cons_self here, first, rest, ?_, leads⟩
  exact (changes.node page fun inside => apart page inside mem_cons_self).trans inner
 | crossing =>
  exact ⟨path mem_cons_self finds.1,
   path (mem_cons_of_mem _ mem_cons_self) finds.2⟩
 | found =>
  exact ⟨path mem_cons_self finds.1, fun value held => finds.2 value (fewer _ value held)⟩
 | returned => exact fun value held => finds value (fewer _ value held)
 | failed => exact fun key value held => finds key value (fewer key value held)
 | _ => trivial

theorem Crabs.finds (taken : Crabs sizes system tid before after) :
 after.Finds tree lasting := by
 cases taken <;> trivial

theorem Writes.finds {new newer : PageId} (taken : Writes sizes tree new before next newer after) :
 after.Finds next lasting := by
 cases taken <;> trivial

theorem lookup_of_stored {key : Key} {value : Value} {entries : List (Key × Value)}
 (sound : Sound tree) (path : OnPath tree key page)
 (leaf : tree.node page = some (.leaf entries)) (stored : Stored tree key value) :
 BPlusTreePage.lookup key entries = some value := by
 obtain ⟨other, others, otherPath, otherLeaf, member⟩ := stored
 have same := path.leaf_unique leaf otherPath otherLeaf
 subst same
 cases leaf.symm.trans otherLeaf
 exact BPlusTreePage.lookup_of_mem (sound.sorted leaf) member

namespace System

/-- A reader latches the page that it took for the root only while a search for its key
visits that page. -/
def avoids (system : System Tid Key Value) (tid : Tid) : Prop :=
 ∀ key page, system.thread tid = .rootReleased key page → OnPath system.tree key page

theorem Crabbed.reads_finds (crabbed : system.Crabbed sizes) (avoids : system.avoids tid)
 (finds : (system.thread tid).Finds system.tree (system.lasting tid))
 (taken : Reads system tid (system.thread tid) after) :
 after.Finds system.tree (system.since tid (system.thread tid)) := by
 have since {key : Key} {value : Value}
  (held : system.since tid (system.thread tid) key value) : Stored system.tree key value :=
  crabbed.since held
 unfold System.avoids at avoids
 generalize system.thread tid = before at finds taken since avoids ⊢
 cases taken with
 | getValue | rLockRoot | fetchRoot | rUnlockRoot => trivial
 | noRoot empty =>
  intro key value held
  obtain ⟨page, entries, path, -⟩ := since held
  exact not_onPath_of_empty empty path
 | rLatchRoot => exact avoids _ _ rfl
 | fetchChild inner => exact ⟨finds, _, _, inner, rfl⟩
 | rLatchChild =>
  obtain ⟨path, first, rest, inner, leads⟩ := finds
  exact ⟨path, leads ▸ .child path inner⟩
 | rUnlatchParent => exact finds.2
 | lookup leaf =>
  exact ⟨finds, fun value held => lookup_of_stored crabbed.sound finds leaf (since held)⟩
 | deleted gone => exact absurd gone (crabbed.sound.node_of_onPath finds)
 | rUnlatchLeaf => exact finds.2

variable [DecidableEq Tid]

structure Searched (sizes : PageSizes) (system : System Tid Key Value) : Prop where
 crabbed : system.Crabbed sizes
 finds : ∀ tid, (system.thread tid).Finds system.tree (system.lasting tid)

theorem Searched.step {next : System Tid Key Value} (searched : system.Searched sizes)
 (avoids : system.avoids tid) (taken : Step sizes system tid next) : next.Searched sizes := by
 refine ⟨searched.crabbed.step taken, fun other => ?_⟩
 have finds := searched.finds other
 cases taken with
 | reads taken =>
  by_cases me : other = tid
  · subst me
    simp only [update_self]
    exact searched.crabbed.reads_finds avoids finds taken
  · simp only [update_of_ne me]
    exact finds
 | @crabs after taken =>
  by_cases me : other = tid
  · subst me
    simp only [update_self]
    exact taken.finds
  · simp only [update_of_ne me]
    exact finds
 | @writes tree newer after taken =>
  by_cases me : other = tid
  · subst me
    simp only [update_self]
    exact taken.finds
  · simp only [update_of_ne me]
    have crabbed := searched.crabbed
    obtain ⟨pages, changes, mine⟩ :=
     (taken.effect crabbed.sound crabbed.fresh (crabbed.good tid)).changes
    refine finds.frame changes (fun page member reads => ?_) fun key value both => both.1
    exact finds.present crabbed.sound page reads ((crabbed.apart me mine member).2 reads)

def start (tree : BPlusTree Key Value) (new : PageId) : System Tid Key Value where
 tree := tree
 nextPageId := new
 thread _ := .idle
 lasting _ _ _ := False

omit [DecidableEq Tid] in
theorem start_searched {new : PageId} (sound : Sound tree)
 (fresh : ∀ page, new ≤ page → tree.node page = none) :
 (start tree new : System Tid Key Value).Searched sizes where
 crabbed :=
  { sound := sound
    fresh := fresh
    known := fun _ _ none => absurd none not_mem_nil
    exclusive := ⟨fun _ _ _ _ none => absurd none not_mem_nil, nofun⟩
    good := fun _ => trivial
    lasting := nofun }
 finds _ := trivial

/-- A call of `GetValue` returns the value that its key has had in the tree all along. -/
def Answers (system : System Tid Key Value) : Prop :=
 ∀ tid key value, system.lasting tid key value →
  (∀ result, system.thread tid = .returned key result → result = some value) ∧
   system.thread tid ≠ .failed

/-- No writer ever needs a latch that `FindLeaf` gave back, and lookups find what has been in the
tree all along unless a reader latches a page that has left the path of its key since the root
latch was given back. -/
theorem getValue_finds (sizes : PageSizes) (tree : BPlusTree Key Value) (new : PageId)
 (sound : Sound tree) (fresh : ∀ page, new ≤ page → tree.node page = none)
 (events : List Tid) (final : System Tid Key Value)
 (run : Run (Step sizes) (start tree new) events final) :
 (∀ tid descent, final.thread tid ≠ .stranded descent) ∧
  (Run (Guarded avoids (Step sizes)) (start tree new) events final → final.Answers) := by
 have crabbed : final.Crabbed sizes :=
  run.invariant (start_searched sound fresh).crabbed fun _ _ _ before taken => before.step taken
 refine ⟨fun tid descent stranded => ?_, fun guarded => ?_⟩
 · have good := crabbed.good tid
   rw [stranded] at good
   exact good
 · have searched : final.Searched sizes :=
    guarded.invariant (start_searched sound fresh) fun _ _ _ before taken =>
     before.step taken.1 taken.2
   intro tid key value held
   have finds := searched.finds tid
   refine ⟨fun result returned => ?_, fun failed => ?_⟩
   · rw [returned] at finds
     exact finds value held
   · rw [failed] at finds
     exact finds key value held

end System

/-! ### A reader and a writer -/

section Pair

def smallSizes : PageSizes := ⟨4, 4, 2, 2⟩

def oneLeaf : BPlusTree ℕ ℕ where
 root := some 0
 node page := if page = 0 then some (.leaf [(1, 10), (2, 20), (3, 30)]) else none

def twoLeaves : BPlusTree ℕ ℕ :=
 ((((((oneLeaf.setPage 0 (.leaf [(1, 10), (2, 20), (3, 30), (4, 40)])).setPage 1
  (.inner 0 [])).setRoot (some 1)).setPage 1 (.inner 0 [(3, 2)])).setPage 0
   (.leaf [(1, 10), (2, 20)])).setPage 2 (.leaf [(3, 30), (4, 40)]))

def pair (reader writer : Thread ℕ ℕ) (tid : Bool) : Thread ℕ ℕ :=
 if tid then reader else writer

theorem oneLeaf_node {node : BPlusTreePage ℕ ℕ} (found : oneLeaf.node page = some node) :
 page = 0 ∧ node = .leaf [(1, 10), (2, 20), (3, 30)] := by
 simp only [oneLeaf] at found
 split at found
 · simp_all
 · cases found

theorem oneLeaf_childless {child : PageId} : ¬ IsChild oneLeaf page child := by
 rintro ⟨first, rest, inner, -⟩
 cases (oneLeaf_node inner).2

theorem oneLeaf_sound : Sound oneLeaf where
 increasing inner := by cases (oneLeaf_node inner).2
 nodup inner := by cases (oneLeaf_node inner).2
 covered inner := by cases (oneLeaf_node inner).2
 sorted leaf := by
  cases (oneLeaf_node leaf).2
  simp [Increasing]
 placed leaf entry _ := (oneLeaf_node leaf).1 ▸ .root rfl
 parent left := absurd left oneLeaf_childless
 rootless _ := oneLeaf_childless
 rooted isRoot := by
  cases isRoot
  exact Option.some_ne_none _
 present child := absurd child oneLeaf_childless

theorem oneLeaf_stored : Stored oneLeaf 3 30 :=
 ⟨0, _, .root rfl, rfl, by decide⟩

theorem twoLeaves_stored : Stored twoLeaves 3 30 := by
 have path : OnPath twoLeaves 3 1 := .root rfl
 have inner : twoLeaves.node 1 = some (.inner 0 [(3, 2)]) := rfl
 have child : OnPath twoLeaves 3 2 := path.child inner
 exact ⟨2, _, child, rfl, by decide⟩

variable {allowed : System Bool ℕ ℕ → Bool → Prop} {tree next : BPlusTree ℕ ℕ} {new newer : PageId}
 {reader writer after : Thread ℕ ℕ}

/-- The entry for 3 has been there since the reader was called. -/
def Reaches (allowed : System Bool ℕ ℕ → Bool → Prop) (tree : BPlusTree ℕ ℕ) (new : PageId)
 (reader writer : Thread ℕ ℕ) : Prop :=
 ∃ events lasting, Run (Guarded allowed (Step smallSizes)) (System.start oneLeaf 1) events
  ⟨tree, new, pair reader writer, lasting⟩ ∧ lasting true 3 30

theorem update_reader : update (pair reader writer) true after = pair after writer := by
 funext tid
 cases tid <;> rfl

theorem update_writer : update (pair reader writer) false after = pair reader after := by
 funext tid
 cases tid <;> rfl

theorem Reaches.start (may : ∀ system tid, system = System.start oneLeaf 1 → allowed system tid) :
 Reaches allowed oneLeaf 1 (.asked 3) .idle := by
 have same : update (fun _ : Bool => (.idle : Thread ℕ ℕ)) true (.asked 3) =
  pair (.asked 3) .idle := by
  funext tid
  cases tid <;> rfl
 have call : Reads (System.start oneLeaf 1) true .idle (.asked 3) := .getValue
 have run : Run (Guarded allowed (Step smallSizes)) (System.start oneLeaf 1) [true] _ :=
  .single ⟨may _ true rfl, .reads call⟩
 simp only [System.start, same] at run
 exact ⟨_, _, run, oneLeaf_stored⟩

section

variable (reaches : Reaches allowed tree new reader writer)
include reaches

theorem Reaches.reads (may : ∀ lasting, allowed ⟨tree, new, pair reader writer, lasting⟩ true)
 (busy : ∀ lasting,
  System.since ⟨tree, new, pair reader writer, lasting⟩ true reader = lasting true)
 (taken : ∀ lasting, Reads ⟨tree, new, pair reader writer, lasting⟩ true reader after) :
 Reaches allowed tree new after writer := by
 obtain ⟨events, lasting, run, stored⟩ := reaches
 have next := run.snoc ⟨may lasting, .reads (taken lasting)⟩
 simp only [update_reader] at next
 refine ⟨_, _, next, ?_⟩
 rw [update_self]
 exact (busy lasting).symm ▸ stored

theorem Reaches.crabs (may : ∀ lasting, allowed ⟨tree, new, pair reader writer, lasting⟩ false)
 (taken : ∀ lasting,
  Crabs smallSizes ⟨tree, new, pair reader writer, lasting⟩ false writer after) :
 Reaches allowed tree new reader after := by
 obtain ⟨events, lasting, run, stored⟩ := reaches
 have next := run.snoc ⟨may lasting, .crabs (taken lasting)⟩
 simp only [update_writer] at next
 exact ⟨_, _, next, stored⟩

theorem Reaches.writes (may : ∀ lasting, allowed ⟨tree, new, pair reader writer, lasting⟩ false)
 (taken : Writes smallSizes tree new writer next newer after) (there : Stored next 3 30) :
 Reaches allowed next newer reader after := by
 obtain ⟨events, lasting, run, stored⟩ := reaches
 have written : Step smallSizes ⟨tree, new, pair reader writer, lasting⟩ false _ :=
  .writes taken
 have later := run.snoc ⟨may lasting, written⟩
 simp only [update_writer] at later
 exact ⟨_, _, later, stored, there⟩

end

theorem Reaches.insert (reaches : Reaches allowed oneLeaf 1 reader .idle)
 (may : ∀ tree new writer lasting, (∀ key page, writer ≠ .rootReleased key page) →
  allowed ⟨tree, new, pair reader writer, lasting⟩ false)
 (latchless : reader.reads = [] ∧ reader.writes = [])
 (rootless : reader.readsRoot = false ∧ reader.writesRoot = false) :
 Reaches allowed twoLeaves 3 reader (.finishing false []) := by
 have rootFree (writer : Thread ℕ ℕ) (lasting : Bool → ℕ → ℕ → Prop) :
  System.RootWritable ⟨oneLeaf, 1, pair reader writer, lasting⟩ false := by
  rintro (_ | _) other
  · exact absurd rfl other
  · exact ⟨rootless.2, rootless.1⟩
 have free (writer : Thread ℕ ℕ) (lasting : Bool → ℕ → ℕ → Prop) :
  System.Writable ⟨oneLeaf, 1, pair reader writer, lasting⟩ false 0 := by
  rintro (_ | _) other
  · exact absurd rfl other
  · change 0 ∉ reader.writes ∧ 0 ∉ reader.reads
    simp_all
 have called : Reaches allowed oneLeaf 1 reader (.called (.insert 4 40)) :=
  reaches.crabs (fun _ => may _ _ _ _ nofun) fun _ => .call
 have locked := called.crabs (fun _ => may _ _ _ _ nofun) fun _ => .wLockRoot (rootFree _ _)
 have chosen := locked.crabs (fun _ => may _ _ _ _ nofun) fun _ => .fetchRoot rfl
 have latched := chosen.crabs (fun _ => may _ _ _ _ nofun) fun _ => .wLatchRoot (free _ _)
 have descending := latched.crabs (fun _ => may _ _ _ _ nofun) fun _ => .notSafe rfl rfl
 have changed := descending.writes (fun _ => may _ _ _ _ nofun) (.changeLeaf rfl rfl)
  ⟨0, _, .root rfl, rfl, by decide⟩
 have isSplit : BPlusTree.splitRoot (oneLeaf.setPage 0
  (.leaf (BPlusTreePage.insertEntry 4 40 [(1, 10), (2, 20), (3, 30)]))) 0 1 2 2 =
   some twoLeaves := rfl
 have grown : Reaches allowed twoLeaves 3 reader (.finishing true [0]) :=
  changed.writes (fun _ => may _ _ _ _ nofun) (.splitRoot rfl rfl rfl rfl rfl isSplit)
   twoLeaves_stored
 have unlocked := grown.crabs (fun _ => may _ _ _ _ nofun) fun _ => .unlockRoot
 exact unlocked.crabs (fun _ => may _ _ _ _ nofun) fun _ => .unlockPage mem_cons_self

variable {lasting : Bool → ℕ → ℕ → Prop}

theorem avoids_of_reader (latched : ∀ key page, reader ≠ .rootReleased key page) :
 System.avoids ⟨tree, new, pair reader writer, lasting⟩ true :=
 fun key page same => absurd same (latched key page)

theorem avoids_of_writer (latched : ∀ key page, writer ≠ .rootReleased key page) :
 System.avoids ⟨tree, new, pair reader writer, lasting⟩ false :=
 fun key page same => absurd same (latched key page)

theorem rootReadable_of_writer (free : writer.writesRoot = false) :
 System.RootReadable ⟨tree, new, pair reader writer, lasting⟩ true := by
 rintro (_ | _) other
 · exact free
 · exact absurd rfl other

theorem readable_of_writer (free : writer.writes = []) :
 System.Readable ⟨tree, new, pair reader writer, lasting⟩ true page := by
 rintro (_ | _) other
 · change page ∉ writer.writes
   rw [free]
   exact not_mem_nil
 · exact absurd rfl other

theorem getValue_finds_inserting : ∃ final : System Bool ℕ ℕ,
 final.thread true = .returned 3 (some 30) ∧ final.Answers := by
 have asked : Reaches System.avoids oneLeaf 1 (.asked 3) .idle :=
  .start fun system tid same => by
   rw [same]
   nofun
 have inserted : Reaches System.avoids twoLeaves 3 (.asked 3) (.finishing false []) :=
  asked.insert (fun _ _ _ _ => avoids_of_writer) ⟨rfl, rfl⟩ ⟨rfl, rfl⟩
 have locked := inserted.reads (fun _ => avoids_of_reader nofun) (fun _ => rfl)
  fun _ => .rLockRoot (rootReadable_of_writer rfl)
 have fetched := locked.reads (fun _ => avoids_of_reader nofun) (fun _ => rfl)
  fun _ => .fetchRoot rfl
 have released := fetched.reads (fun _ => avoids_of_reader nofun) (fun _ => rfl)
  fun _ => .rUnlockRoot
 have root : OnPath twoLeaves 3 1 := .root rfl
 have searching := released.reads
  (fun _ key page same => by
   cases same
   exact root)
  (fun _ => rfl) fun _ => .rLatchRoot (readable_of_writer rfl)
 have chosen := searching.reads (fun _ => avoids_of_reader nofun) (fun _ => rfl)
  fun _ => .fetchChild (rfl : twoLeaves.node 1 = some (.inner 0 [(3, 2)]))
 have crossing := chosen.reads (fun _ => avoids_of_reader nofun) (fun _ => rfl)
  fun _ => .rLatchChild (readable_of_writer rfl)
 have below := crossing.reads (fun _ => avoids_of_reader nofun) (fun _ => rfl)
  fun _ => .rUnlatchParent
 have found := below.reads (fun _ => avoids_of_reader nofun) (fun _ => rfl)
  fun _ => .lookup (rfl : twoLeaves.node 2 = some (.leaf [(3, 30), (4, 40)]))
 obtain ⟨events, lasting, run, -⟩ := found.reads (fun _ => avoids_of_reader nofun)
  (fun _ => rfl) fun _ => .rUnlatchLeaf
 have fresh : ∀ page : PageId, 1 ≤ page → oneLeaf.node page = none := by
  intro page new
  exact if_neg fun same => absurd (same ▸ new) (by decide)
 exact ⟨_, rfl, (System.getValue_finds smallSizes oneLeaf 1 oneLeaf_sound fresh events _
  run.of_guarded).2 run⟩

/-- The reader gives the root latch back, the root is split, and the reader looks for 3 in the
leaf that was the root. -/
theorem getValue_misses : ∃ events, ∃ final : System Bool ℕ ℕ,
 Run (Step smallSizes) (System.start oneLeaf 1) events final ∧ ¬ final.Answers := by
 have asked : Reaches (fun _ _ => True) oneLeaf 1 (.asked 3) .idle := .start fun _ _ _ => trivial
 have locked := asked.reads (fun _ => trivial) (fun _ => rfl)
  fun _ => .rLockRoot (rootReadable_of_writer rfl)
 have fetched := locked.reads (fun _ => trivial) (fun _ => rfl) fun _ => .fetchRoot rfl
 have released := fetched.reads (fun _ => trivial) (fun _ => rfl) fun _ => .rUnlockRoot
 have inserted := released.insert (fun _ _ _ _ _ => trivial) ⟨rfl, rfl⟩ ⟨rfl, rfl⟩
 have searching := inserted.reads (fun _ => trivial) (fun _ => rfl)
  fun _ => .rLatchRoot (readable_of_writer rfl)
 have found := searching.reads (fun _ => trivial) (fun _ => rfl)
  fun _ => .lookup (rfl : twoLeaves.node 0 = some (.leaf [(1, 10), (2, 20)]))
 obtain ⟨events, lasting, run, stored⟩ := found.reads (fun _ => trivial) (fun _ => rfl)
  fun _ => .rUnlatchLeaf
 refine ⟨events, _, run.of_guarded, fun answers => ?_⟩
 cases (answers true 3 30 stored).1 none rfl

end Pair

end MyNotes.Cmu15445
