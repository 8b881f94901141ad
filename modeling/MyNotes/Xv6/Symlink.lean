/-
`sys_symlink` of lab 9 and the `create` that it calls.

What `argstr`, `nameiparent`, `ialloc` and `writei` come to in a call is given with the call; a
`writei` may stop early, or refuse with -1.  A directory has a slot for each dirent, which is
free when `inum` is 0.  A step that panics has no result.
-/

import Mathlib.Data.Int.Notation
import MyNotes.Xv6.SymlinkOpen

namespace MyNotes.Xv6.Symlink

open MyNotes.Xv6.SymlinkOpen Function List Option

abbrev Str := List UInt8

structure Inode where
 type : InodeType
 major : ℕ
 minor : ℕ
 nlink : ℕ
 /-- The bytes of what is no directory. -/
 data : List UInt8
 slots : List (Option (Str × ℕ))
 deriving DecidableEq

structure State where
 kernel : SymlinkOpen.Kernel ℕ
 inodes : ℕ → Option Inode

structure Call where
 target : Option Str
 path : Option Str
 nameiparent : Str → Option (ℕ × Str)
 ialloc : Option ℕ
 /-- Whether `writei` writes all of the dirent for this name. -/
 writesDirent : Str → Bool
 /-- The bytes that `writei` writes of the target; `none` for -1. -/
 written : Option ℕ

def lookup (name : Str) (slots : List (Option (Str × ℕ))) : Option ℕ :=
 slots.findSome? fun slot => slot.bind fun de => if de.1 = name then some de.2 else none

/-- The dirent goes to the first free slot, or behind the last one. -/
def fill (de : Str × ℕ) : List (Option (Str × ℕ)) → List (Option (Str × ℕ))
 | [] => [some de]
 | none :: slots => some de :: slots
 | some other :: slots => some other :: fill de slots

namespace State

def idup (self : State) (ip : ℕ) : State := { self with kernel := self.kernel.idup ip }

def ilock (self : State) (ip : ℕ) : State := { self with kernel := self.kernel.ilock ip }

def iunlockput (self : State) (ip : ℕ) : State :=
 { self with kernel := self.kernel.iunlockput ip }

def beginOp (self : State) : State := { self with kernel := self.kernel.beginOp }

def endOp (self : State) : State := { self with kernel := self.kernel.endOp }

def store (self : State) (ip : ℕ) (inode : Inode) : State :=
 { self with inodes := update self.inodes ip (some inode) }

def slots (self : State) (dp : ℕ) : Option (List (Option (Str × ℕ))) :=
 (self.inodes dp).bind fun inode => if inode.type = .dir then some inode.slots else none

section

variable (self : State)

/-- The inode comes without its reference; what has no slots makes it panic. -/
def dirlookup (dp : ℕ) (name : Str) : Option (Option ℕ) :=
 (self.slots dp).map (lookup name)

def setSlots (dp : ℕ) (slots : List (Option (Str × ℕ))) : State :=
 { self with
  inodes := update self.inodes dp
   ((self.inodes dp).map fun inode => { inode with slots := slots }) }

def dirlink (call : Call) (dp : ℕ) (name : Str) (inum : ℕ) : Option (Bool × State) :=
 (self.slots dp).bind fun slots =>
  match lookup name slots with
  -- `iput` gives back what `dirlookup` took
  | some _ => some (false, self)
  | none =>
   if call.writesDirent name then some (true, self.setSlots dp (fill (name, inum) slots))
   else none

/-- `ialloc` and the fields that `create` sets; only an inode that is free can be had. -/
def make (call : Call) (type : InodeType) (major minor : ℕ) : Option (ℕ × State) :=
 call.ialloc.bind fun ip =>
  match self.inodes ip with
  | some _ => none
  | none => some (ip, ((self.idup ip).ilock ip).store ip ⟨type, major, minor, 1, [], []⟩)

def countLink (dp : ℕ) : State :=
 { self with
  inodes := update self.inodes dp
   ((self.inodes dp).map fun inode => { inode with nlink := inode.nlink + 1 }) }

end

def dot : Str := [0x2E]

def dots (self : State) (call : Call) (dp ip : ℕ) : Option State :=
 ((self.countLink dp).dirlink call ip dot ip).bind fun first =>
  if first.1 then
   (first.2.dirlink call ip (dot ++ dot) dp).bind fun second =>
    if second.1 then some second.2 else none
  else none

/-- `none` for a panic; the inode is `none` for 0. -/
def create (self : State) (call : Call) (path : Str) (type : InodeType) (major minor : ℕ) :
 Option (Option ℕ × State) :=
 match call.nameiparent path with
 | none => some (none, self)
 | some (dp, name) =>
  let self := (self.idup dp).ilock dp
  (self.dirlookup dp name).bind fun found =>
   match found with
   | some ip =>
    let self := ((self.idup ip).iunlockput dp).ilock ip
    let there := (self.inodes ip).map Inode.type
    if type = .file ∧ (there = some .file ∨ there = some .device) then
     some (some ip, self)
    else some (none, self.iunlockput ip)
   | none =>
    (self.make call type major minor).bind fun made =>
     let ip := made.1
     (if type = .dir then made.2.dots call dp ip else some made.2).bind fun self =>
      (self.dirlink call dp name ip).bind fun linked =>
       if linked.1 then some (some ip, linked.2.iunlockput dp) else none

/-- `writei` at the start of a file. -/
def writei (self : State) (written : Option ℕ) (ip : ℕ) (bytes : List UInt8) : ℤ × State :=
 match written, self.inodes ip with
 | some count, some inode =>
  let count := min count bytes.length
  (count, self.store ip { inode with data := bytes.take count ++ inode.data.drop count })
 | _, _ => (-1, self)

def sysSymlink (self : State) (call : Call) : Option (ℤ × State) :=
 match call.target, call.path with
 | some target, some path =>
  (self.beginOp.create call path .symlink 0 0).map fun created =>
   match created.1 with
   | none => (-1, created.2.endOp)
   | some ip =>
    let bytes := target ++ [0]
    let result := created.2.writei call.written ip bytes
    if result.1 ≠ bytes.length then (-1, result.2.endOp)
    else (0, (result.2.iunlockput ip).endOp)
 | _, _ => some (-1, self)

variable {self after : State} {call : Call} {path : Str}

/-- What `path` names is a symbolic link whose content is the target with its NUL. -/
def Linked (self : State) (call : Call) : Prop :=
 ∃ target path dp name slots ip inode, call.target = some target ∧ call.path = some path ∧
  call.nameiparent path = some (dp, name) ∧ self.slots dp = some slots ∧
   lookup name slots = some ip ∧ self.inodes ip = some inode ∧ inode.type = .symlink ∧
    inode.data = target ++ [0]

/-- Every dirent of a directory that was not there before belongs to an inode with the whole
target. -/
def Clean (before after : State) (call : Call) : Prop :=
 ∀ dp slots name ip, after.slots dp = some slots → some (name, ip) ∈ slots →
  (∃ old, before.slots dp = some old ∧ some (name, ip) ∈ old) ∨
   ∃ target inode, call.target = some target ∧ after.inodes ip = some inode ∧
    inode.data = target ++ [0]

/-- A call that returns gives back what it takes, and returns 0 exactly when it has made the
link.  A path that named such a link before is refused, as every name that is there. -/
structure Correct (before : State) (call : Call) : Prop where
 returned : ∀ result after, before.sysSymlink call = some (result, after) →
  result = 0 ∨ result = -1
 balanced : ∀ result after, before.sysSymlink call = some (result, after) →
  after.kernel.outstanding = before.kernel.outstanding
 released : ∀ result after, before.sysSymlink call = some (result, after) →
  after.kernel.locked = before.kernel.locked ∧ after.kernel.ref = before.kernel.ref
 linked : ∀ result after, before.sysSymlink call = some (result, after) →
  (result = 0 ↔ after.Linked call ∧ ¬ before.Linked call)
 clean : ∀ after, before.sysSymlink call = some (-1, after) → Clean before after call

/-- `writei` writes the whole target once `create` has made the inode. -/
def WritesWhole (before : State) (call : Call) : Prop :=
 ∀ target path ip created, call.target = some target → call.path = some path →
  before.beginOp.create call path .symlink 0 0 = some (some ip, created) →
  ∃ count, call.written = some count ∧ target.length < count

/-! ### References and locks -/

section References

variable {Inode : Type} [DecidableEq Inode] (kernel : SymlinkOpen.Kernel Inode) {ip dp : Inode}

theorem put_held (ip : Inode) : ((kernel.idup ip).ilock ip).iunlockput ip = kernel := by
 have refs : update (update kernel.ref ip (kernel.ref ip + 1)) ip
  (update kernel.ref ip (kernel.ref ip + 1) ip - 1) = kernel.ref := by
  rw [update_self, update_idem, Nat.add_sub_cancel, update_eq_self]
 unfold SymlinkOpen.Kernel.iunlockput SymlinkOpen.Kernel.ilock SymlinkOpen.Kernel.idup
 rw [erase_cons_head, refs]

theorem put_parent (dp ip : Inode) :
 (((kernel.idup dp).ilock dp).idup ip).iunlockput dp = kernel.idup ip := by
 have refs : ((((kernel.idup dp).ilock dp).idup ip).iunlockput dp).ref =
  (kernel.idup ip).ref := by
  funext other
  simp only [SymlinkOpen.Kernel.iunlockput, SymlinkOpen.Kernel.ilock, SymlinkOpen.Kernel.idup,
   update_apply]
  by_cases parent : other = dp
  · subst parent
    by_cases same : other = ip
    · simp [same]
    · simp [same]
  · by_cases same : other = ip
    · subst same
      simp [parent]
    · simp [parent, same]
 calc (((kernel.idup dp).ilock dp).idup ip).iunlockput dp
  = { kernel with
   locked := (dp :: kernel.locked).erase dp
   ref := ((((kernel.idup dp).ilock dp).idup ip).iunlockput dp).ref } := rfl
  _ = kernel.idup ip := by
   rw [refs, erase_cons_head]
   rfl

theorem put_parent_held (apart : ip ≠ dp) :
 ((((kernel.idup dp).ilock dp).idup ip).ilock ip).iunlockput dp =
  (kernel.idup ip).ilock ip := by
 have kept := put_parent kernel dp ip
 have locks : (ip :: dp :: kernel.locked).erase dp = ip :: kernel.locked := by
  rw [erase_cons_tail (by simpa using apart), erase_cons_head]
 calc ((((kernel.idup dp).ilock dp).idup ip).ilock ip).iunlockput dp
  = { (((kernel.idup dp).ilock dp).idup ip).iunlockput dp with
   locked := (ip :: dp :: kernel.locked).erase dp } := rfl
  _ = (kernel.idup ip).ilock ip := by
   rw [kept, locks]
   rfl

end References

/-! ### What `create` leaves -/

variable {dp ip : ℕ} {name : Str} {slots : List (Option (Str × ℕ))} {found : Option ℕ}
 {created : State}

/-- With a new link in the directory, locked and with one reference to it. -/
def linkedTo (self : State) (dp ip : ℕ) (slots : List (Option (Str × ℕ))) : State :=
 (((self.idup ip).ilock ip).store ip ⟨.symlink, 0, 0, 1, [], []⟩).setSlots dp slots

theorem ne_of_slots (directory : self.slots dp = some slots) (free : self.inodes ip = none) :
 dp ≠ ip := by
 intro same
 rw [State.slots, same, free] at directory
 cases directory

theorem slots_congr {other : State} (same : other.inodes dp = self.inodes dp) :
 other.slots dp = self.slots dp := by
 unfold State.slots
 rw [same]

theorem put_linkedTo (apart : ip ≠ dp) :
 (((((self.idup dp).ilock dp).idup ip).ilock ip).store ip ⟨.symlink, 0, 0, 1, [], []⟩
  |>.setSlots dp slots).iunlockput dp = self.linkedTo dp ip slots :=
 congrArg (State.mk · _) (put_parent_held self.kernel apart)

theorem make_spec {made : State} (result : self.make call .symlink 0 0 = some (ip, made)) :
 self.inodes ip = none ∧
  made = ((self.idup ip).ilock ip).store ip ⟨.symlink, 0, 0, 1, [], []⟩ := by
 obtain ⟨inum, -, result⟩ := bind_eq_some_iff.mp result
 split at result
 · cases result
 · grind

theorem dirlink_spec {linked : State}
 (result : self.dirlink call dp name ip = some (true, linked)) :
 ∃ slots, self.slots dp = some slots ∧ linked = self.setSlots dp (fill (name, ip) slots) := by
 obtain ⟨slots, directory, result⟩ := bind_eq_some_iff.mp result
 refine ⟨slots, directory, ?_⟩
 split at result
 · cases result
 · split at result
   · cases result
     rfl
   · cases result

theorem create_spec (call : Call)
 (result : self.create call path .symlink 0 0 = some (found, created)) :
 (found = none ∧ created = self) ∨
  ∃ dp name slots ip, call.nameiparent path = some (dp, name) ∧
   self.slots dp = some slots ∧ lookup name slots = none ∧ self.inodes ip = none ∧
    found = some ip ∧ created = self.linkedTo dp ip (fill (name, ip) slots) := by
 unfold create at result
 cases parent : call.nameiparent path with
 | none =>
  simp_all
 | some pair =>
  obtain ⟨dp, name⟩ := pair
  rw [parent] at result
  dsimp only at result
  obtain ⟨there, look, result⟩ := bind_eq_some_iff.mp result
  obtain ⟨slots, directory, same⟩ := map_eq_some_iff.mp look
  replace directory : self.slots dp = some slots := directory
  cases there with
  | some ip =>
   dsimp only at result
   rw [if_neg fun both => InodeType.noConfusion both.1] at result
   cases result
   refine .inl ⟨rfl, congrArg (State.mk · _) ?_⟩
   exact (congrArg (fun kernel => (kernel.ilock ip).iunlockput ip)
    (put_parent self.kernel dp ip)).trans (put_held self.kernel ip)
  | none =>
   obtain ⟨⟨ip, made⟩, make, result⟩ := bind_eq_some_iff.mp result
   obtain ⟨free, isMade⟩ := make_spec make
   have apart := ne_of_slots directory free
   rw [if_neg InodeType.noConfusion, bind_some] at result
   obtain ⟨⟨wrote, linked⟩, link, result⟩ := bind_eq_some_iff.mp result
   cases wrote with
   | false => cases result
   | true =>
    cases result
    obtain ⟨others, again, isLinked⟩ := dirlink_spec link
    subst isMade
    rw [slots_congr (update_of_ne apart _ _)] at again
    cases directory.symm.trans again
    rw [isLinked]
    exact .inr ⟨dp, name, slots, ip, rfl, directory, same, free, rfl,
     put_linkedTo apart.symm⟩

/-! ### The directory entry and the content -/

theorem lookup_fill (absent : lookup name slots = none) :
 lookup name (fill (name, ip) slots) = some ip := by
 induction slots with
 | nil => simp [lookup, fill]
 | cons slot slots ih =>
  cases slot with
  | none => simp [lookup, fill]
  | some other =>
   unfold lookup at absent ih ⊢
   rw [List.findSome?_cons, bind_some] at absent
   rw [fill, List.findSome?_cons, bind_some]
   by_cases same : other.1 = name
   · simp_all
   · grind

theorem mem_fill {de other : Str × ℕ} (member : some other ∈ fill de slots) :
 other = de ∨ some other ∈ slots := by
 induction slots with
 | nil => exact .inl (Option.some.inj (mem_singleton.mp member))
 | cons slot slots ih =>
  cases slot with
  | none =>
   rcases mem_cons.mp member with same | later
   · exact .inl (Option.some.inj same)
   · exact .inr (mem_cons_of_mem _ later)
  | some first =>
   rcases mem_cons.mp member with same | later
   · exact .inr (mem_cons.mpr (.inl same))
   · grind

theorem linkedTo_inodes_self (apart : dp ≠ ip) :
 (self.linkedTo dp ip slots).inodes ip = some ⟨.symlink, 0, 0, 1, [], []⟩ :=
 (update_of_ne apart.symm _ _).trans (update_self _ _ _)

theorem linkedTo_inodes_other {other : ℕ} (parent : other ≠ dp) (apart : other ≠ ip) :
 (self.linkedTo dp ip slots).inodes other = self.inodes other :=
 (update_of_ne parent _ _).trans (update_of_ne apart _ _)

theorem linkedTo_slots {old : List (Option (Str × ℕ))} (apart : dp ≠ ip)
 (directory : self.slots dp = some old) : (self.linkedTo dp ip slots).slots dp = some slots := by
 have parent : (self.linkedTo dp ip slots).inodes dp =
  (self.inodes dp).map fun inode => { inode with slots := slots } := by
  refine (update_self _ _ _).trans (congrArg (Option.map _) ?_)
  exact update_of_ne apart _ _
 obtain ⟨inode, there, kind⟩ := bind_eq_some_iff.mp directory
 unfold State.slots
 rw [parent, there]
 split at kind
 · rename_i isDir
   exact if_pos isDir
 · cases kind

/-! ### What the call leaves -/

def written (self : State) (ip : ℕ) (bytes : List UInt8) : State :=
 self.store ip ⟨.symlink, 0, 0, 1, bytes, []⟩

variable {bytes : List UInt8}

theorem writei_new (here : self.inodes ip = some ⟨.symlink, 0, 0, 1, [], []⟩) (count : Option ℕ)
 (whole : (self.writei count ip bytes).1 = bytes.length) :
 (∃ number, count = some number ∧ bytes.length ≤ number) ∧
  (self.writei count ip bytes).2 = self.written ip bytes := by
 cases count with
 | none => cases whole
 | some number =>
  simp only [writei, here] at whole ⊢
  have enough : bytes.length ≤ number := by omega
  refine ⟨⟨number, rfl, enough⟩, ?_⟩
  rw [Nat.min_eq_right enough, take_length, drop_nil, append_nil]
  rfl

theorem writei_short (here : self.inodes ip = some ⟨.symlink, 0, 0, 1, [], []⟩) (count : Option ℕ)
 (short : (self.writei count ip bytes).1 ≠ bytes.length) {number : ℕ}
 (some : count = some number) : number < bytes.length := by
 subst some
 simp only [writei, here] at short
 omega

theorem writei_kernel (count : Option ℕ) (bytes : List UInt8) :
 (self.writei count ip bytes).2.kernel = self.kernel := by
 unfold writei
 split <;> rfl

theorem sysSymlink_spec {result : ℤ} (returned : self.sysSymlink call = some (result, after)) :
 (result = -1 ∧ after = self ∧ ∀ target path ip created, call.target = some target →
  call.path = some path →
   self.beginOp.create call path .symlink 0 0 ≠ some (some ip, created)) ∨
  ∃ target path dp name slots ip, call.target = some target ∧ call.path = some path ∧
   call.nameiparent path = some (dp, name) ∧ self.slots dp = some slots ∧
   lookup name slots = none ∧ self.inodes ip = none ∧
   self.beginOp.create call path .symlink 0 0 =
    some (some ip, self.beginOp.linkedTo dp ip (fill (name, ip) slots)) ∧
   ((result = 0 ∧ (∃ count, call.written = some count ∧ target.length < count) ∧
    after.kernel = self.kernel ∧ after.inodes = ((self.linkedTo dp ip
     (fill (name, ip) slots)).written ip (target ++ [0])).inodes) ∨
   (result = -1 ∧ (∀ count, call.written = some count → count ≤ target.length) ∧
    after.kernel.locked = ip :: self.kernel.locked)) := by
 unfold sysSymlink at returned
 split at returned
 · rename_i target path hasTarget hasPath
   obtain ⟨⟨found, created⟩, create, same⟩ := map_eq_some_iff.mp returned
   rcases create_spec call create with ⟨rfl, rfl⟩ |
    ⟨dp, name, slots, ip, parent, directory, absent, free, rfl, rfl⟩
   · cases same
     refine .inl ⟨rfl, rfl, fun _ _ ip other _ samePath made => ?_⟩
     simp_all
   · refine .inr ⟨target, path, dp, name, slots, ip, hasTarget, hasPath, parent, directory,
      absent, free, create, ?_⟩
     have apart := ne_of_slots directory free
     have here : (self.beginOp.linkedTo dp ip (fill (name, ip) slots)).inodes ip =
      some ⟨.symlink, 0, 0, 1, [], []⟩ := linkedTo_inodes_self apart
     dsimp only at same
     split at same
     · rename_i short
       cases same
       refine .inr ⟨rfl, fun count some => ?_, ?_⟩
       · have less := writei_short here _ short some
         grind
       · exact congrArg SymlinkOpen.Kernel.locked (writei_kernel _ _)
     · rename_i whole
       obtain ⟨enough, stored⟩ := writei_new here _ (not_not.mp whole)
       rw [stored] at same
       cases same
       rw [length_append] at enough
       exact .inl ⟨rfl, enough, congrArg SymlinkOpen.Kernel.endOp (put_held _ ip), rfl⟩
 · simp_all

variable {before : State}

theorem slots_of_written (directory : before.slots dp = some slots) (free : before.inodes ip = none)
 (same : after.inodes = ((before.linkedTo dp ip (fill (name, ip) slots)).written ip
  bytes).inodes) : after.slots dp = some (fill (name, ip) slots) := by
 have apart := ne_of_slots directory free
 rw [← linkedTo_slots apart directory]
 refine slots_congr ?_
 rw [same]
 exact update_of_ne apart _ _

variable {target : Str}

section

variable (hasTarget : call.target = some target)
include hasTarget

theorem linked_of_written (hasPath : call.path = some path)
 (parent : call.nameiparent path = some (dp, name)) (directory : before.slots dp = some slots)
 (absent : lookup name slots = none) (free : before.inodes ip = none)
 (same : after.inodes = ((before.linkedTo dp ip (fill (name, ip) slots)).written ip
  (target ++ [0])).inodes) : after.Linked call ∧ ¬ before.Linked call := by
 refine ⟨⟨target, path, dp, name, fill (name, ip) slots, ip,
  ⟨.symlink, 0, 0, 1, target ++ [0], []⟩, hasTarget, hasPath, parent,
  slots_of_written directory free same, lookup_fill absent, ?_, rfl, rfl⟩, ?_⟩
 · rw [same]
   exact update_self _ _ _
 · rintro ⟨_, other, _, _, others, found, _, _, samePath, sameParent, sameSlots, there, -⟩
   simp_all

theorem clean_of_written (directory : before.slots dp = some slots) (free : before.inodes ip = none)
 (same : after.inodes = ((before.linkedTo dp ip (fill (name, ip) slots)).written ip
  (target ++ [0])).inodes) : Clean before after call := by
 intro parent others found inum there member
 by_cases isParent : parent = dp
 · subst isParent
   cases there.symm.trans (slots_of_written directory free same)
   rcases mem_fill member with new | old
   · cases new
     refine .inr ⟨target, ⟨.symlink, 0, 0, 1, target ++ [0], []⟩, hasTarget, ?_, rfl⟩
     rw [same]
     exact update_self _ _ _
   · exact .inl ⟨slots, directory, old⟩
 · by_cases isLink : parent = ip
   · subst isLink
     have content : after.inodes parent = some ⟨.symlink, 0, 0, 1, target ++ [0], []⟩ := by
      rw [same]
      exact update_self _ _ _
     rw [State.slots, content] at there
     cases there
   · refine .inl ⟨others, ?_, member⟩
     rw [← there]
     refine (slots_congr ?_).symm
     rw [same]
     exact (update_of_ne isLink _ _).trans (linkedTo_inodes_other isParent isLink)

theorem sysSymlink_of_create (hasPath : call.path = some path)
 (made : self.beginOp.create call path .symlink 0 0 = some (found, created)) :
 ∃ result after, self.sysSymlink call = some (result, after) := by
 unfold sysSymlink
 rw [hasTarget, hasPath]
 dsimp only
 rw [made]
 exact ⟨_, _, rfl⟩

end

/-- A call gives back what it takes and returns 0 exactly when it has made the link, and
otherwise leaves no dirent behind, as long as `writei` does not stop early. -/
theorem symlink_correct_iff (before : State) (call : Call) :
 Correct before call ↔ WritesWhole before call := by
 constructor
 · intro correct target path ip created hasTarget hasPath made
   obtain ⟨result, after, returned⟩ := sysSymlink_of_create hasTarget hasPath made
   rcases sysSymlink_spec returned with ⟨-, -, nothing⟩ |
    ⟨_, _, _, _, _, _, sameTarget, _, _, _, _, _, _, ⟨_, enough, -⟩ | ⟨-, -, locked⟩⟩
   · simp_all
   · simp_all
   · rw [(correct.released result after returned).1] at locked
     simp_all
 · intro whole
   have spec : ∀ result after, before.sysSymlink call = some (result, after) →
    (result = -1 ∧ after = before) ∨ (result = 0 ∧ after.kernel = before.kernel ∧
     (after.Linked call ∧ ¬ before.Linked call) ∧ Clean before after call) := by
    intro result after returned
    rcases sysSymlink_spec returned with ⟨failed, same, -⟩ | ⟨target, path, dp, name, slots, ip,
     hasTarget, hasPath, parent, directory, absent, free, made,
     ⟨done, -, kernel, inodes⟩ | ⟨-, short, -⟩⟩
    · exact .inl ⟨failed, same⟩
    · exact .inr ⟨done, kernel,
       linked_of_written hasTarget hasPath parent directory absent free inodes,
       clean_of_written hasTarget directory free inodes⟩
    · obtain ⟨count, some, enough⟩ := whole target path ip _ hasTarget hasPath made
      grind
   constructor
   · grind
   · intro result after returned
     rcases spec result after returned with ⟨-, same⟩ | ⟨-, kernel, -⟩
     · rw [same]
     · rw [kernel]
   · intro result after returned
     rcases spec result after returned with ⟨-, same⟩ | ⟨-, kernel, -⟩
     · rw [same]
       exact ⟨rfl, rfl⟩
     · rw [kernel]
       exact ⟨rfl, rfl⟩
   · intro result after returned
     rcases spec result after returned with ⟨failed, same⟩ | ⟨done, -, linked, -⟩
     · simp_all
     · exact iff_of_true done linked
   · intro after returned
     rcases spec (-1) after returned with ⟨-, same⟩ | ⟨-, -, -, clean⟩
     · rw [same]
       intro dp slots name ip directory member
       exact .inl ⟨slots, directory, member⟩
     · exact clean

def emptyDirectory : State where
 kernel := ⟨fun _ => 0, [], 0⟩
 inodes ip := if ip = 1 then some ⟨.dir, 0, 0, 1, [], []⟩ else none

/-- `symlink("a", "l")`, of which `writei` writes one byte. -/
def shortCall : Call where
 target := some [0x61]
 path := some [0x6C]
 nameiparent path := some (1, path)
 ialloc := some 2
 writesDirent _ := true
 written := some 1

/-- The call returns -1 with the new inode locked. -/
theorem short_write_keeps_inode : ¬ Correct emptyDirectory shortCall := by
 obtain ⟨after, returned, locked⟩ : ∃ after,
  emptyDirectory.sysSymlink shortCall = some (-1, after) ∧ after.kernel.locked = [2] :=
  ⟨_, rfl, rfl⟩
 intro correct
 have kept := (correct.released (-1) after returned).1
 rw [locked] at kept
 cases kept

end State

end MyNotes.Xv6.Symlink
