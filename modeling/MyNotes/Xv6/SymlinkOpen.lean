/-
`sys_open` of lab 9 without `O_CREATE`: symbolic links.

What `namei` finds and what `readi` leaves in `link_target` are those of the file system at
the call; `readi` fails with `none`.  `namei` gives its inode one more reference and keeps
nothing else.  The model ends where the code goes on to open a file for `ip`.
-/

import Mathlib.Data.Nat.Notation
import Mathlib.Logic.Function.Basic

namespace MyNotes.Xv6.SymlinkOpen

open Function

inductive InodeType where
 | dir
 | file
 | device
 | symlink
 deriving DecidableEq

structure FileSystem (Inode Path : Type) where
 type : Inode → InodeType
 namei : Path → Option Inode
 readi : Inode → Option Path

/-- The references to the inodes, the inodes that the process has locked, and the calls that are
in a transaction. -/
structure Kernel (Inode : Type) where
 ref : Inode → ℕ
 locked : List Inode
 outstanding : ℕ

variable {Inode Path : Type} [DecidableEq Inode]

namespace Kernel

omit [DecidableEq Inode] in
def beginOp (self : Kernel Inode) : Kernel Inode :=
 { self with outstanding := self.outstanding + 1 }

omit [DecidableEq Inode] in
def endOp (self : Kernel Inode) : Kernel Inode :=
 { self with outstanding := self.outstanding - 1 }

/-- What `namei` does for the inode that it returns. -/
def idup (self : Kernel Inode) (ip : Inode) : Kernel Inode :=
 { self with ref := update self.ref ip (self.ref ip + 1) }

omit [DecidableEq Inode] in
def ilock (self : Kernel Inode) (ip : Inode) : Kernel Inode :=
 { self with locked := ip :: self.locked }

def iunlockput (self : Kernel Inode) (ip : Inode) : Kernel Inode :=
 { self with
  locked := self.locked.erase ip
  ref := update self.ref ip (self.ref ip - 1) }

end Kernel

def oRdonly : ℕ := 0

section Open

variable (fs : FileSystem Inode Path) (oNofollow omode : ℕ)

/-- The `while` loop, with the number of links that it may still follow. -/
def follow : ℕ → Inode → Kernel Inode → Option Inode × Kernel Inode
 | 0, ip, kernel =>
  if fs.type ip = .symlink then (none, (kernel.iunlockput ip).endOp) else (some ip, kernel)
 | left + 1, ip, kernel =>
  if fs.type ip = .symlink then
   match fs.readi ip with
   | none => (none, (kernel.iunlockput ip).endOp)
   | some linkTarget =>
    if omode &&& oNofollow ≠ 0 then (none, (kernel.iunlockput ip).endOp)
    else
     match fs.namei linkTarget with
     | none => (none, (kernel.iunlockput ip).endOp)
     | some next => follow left next (((kernel.iunlockput ip).idup next).ilock next)
  else (some ip, kernel)

/-- The result is `ip`, and `none` for -1. -/
def sysOpen (path : Path) (kernel : Kernel Inode) : Option Inode × Kernel Inode :=
 match fs.namei path with
 | none => (none, kernel.beginOp.endOp)
 | some ip =>
  let kernel := (kernel.beginOp.idup ip).ilock ip
  if fs.type ip = .dir ∧ omode ≠ oRdonly then (none, (kernel.iunlockput ip).endOp)
  else follow fs oNofollow omode 10 ip kernel

end Open

/-! ### Opening a path -/

/-- Following so many links at most leads from one inode to another that is no link. -/
inductive Leads (fs : FileSystem Inode Path) : ℕ → Inode → Inode → Prop
 | here {left : ℕ} {ip : Inode} (last : fs.type ip ≠ .symlink) : Leads fs left ip ip
 | link {left : ℕ} {ip next target : Inode} {linkTarget : Path} (link : fs.type ip = .symlink)
  (read : fs.readi ip = some linkTarget) (found : fs.namei linkTarget = some next)
  (later : Leads fs left next target) : Leads fs (left + 1) ip target

/-- The inode that is to be opened: the one that the path names, or the one that its links lead
to; a directory only to be read. -/
def Opens (fs : FileSystem Inode Path) (oNofollow omode : ℕ) (path : Path) (ip : Inode) : Prop :=
 (omode &&& oNofollow ≠ 0 → fs.namei path = some ip) ∧
  (omode &&& oNofollow = 0 → ∃ first, fs.namei path = some first ∧ Leads fs 10 first ip) ∧
  (fs.type ip = .dir → omode = oRdonly)

/-- With `ip` locked and one reference to it, in a transaction. -/
def Kernel.opened (kernel : Kernel Inode) (ip : Inode) : Kernel Inode :=
 (kernel.beginOp.idup ip).ilock ip

/-- The call leaves the inode that is to be opened, locked, or fails and leaves nothing behind. -/
structure Correct (fs : FileSystem Inode Path) (oNofollow omode : ℕ) (path : Path)
 (kernel : Kernel Inode) : Prop where
 opened : ∀ ip, Opens fs oNofollow omode path ip →
  sysOpen fs oNofollow omode path kernel = (some ip, kernel.opened ip)
 failed : (∀ ip, ¬Opens fs oNofollow omode path ip) →
  sysOpen fs oNofollow omode path kernel = (none, kernel)

/-- A link that is not to be followed, or one that leads to a directory that is not only to be
read. -/
def Misled (fs : FileSystem Inode Path) (oNofollow omode : ℕ) (path : Path) : Prop :=
 ∃ first, fs.namei path = some first ∧ fs.type first = .symlink ∧
  (omode &&& oNofollow ≠ 0 ∨
   (omode ≠ oRdonly ∧ ∃ ip, Leads fs 10 first ip ∧ fs.type ip = .dir))

variable {fs : FileSystem Inode Path} {oNofollow omode : ℕ}

theorem Kernel.iunlockput_opened (kernel : Kernel Inode) (ip : Inode) :
 (kernel.opened ip).iunlockput ip = kernel.beginOp := by
 have refs : update (update kernel.ref ip (kernel.ref ip + 1)) ip
  (update kernel.ref ip (kernel.ref ip + 1) ip - 1) = kernel.ref := by
  rw [update_self, update_idem, Nat.add_sub_cancel, update_eq_self]
 unfold Kernel.iunlockput Kernel.opened Kernel.ilock Kernel.idup Kernel.beginOp
 rw [List.erase_cons_head, refs]

theorem Kernel.endOp_opened (kernel : Kernel Inode) (ip : Inode) :
 ((kernel.opened ip).iunlockput ip).endOp = kernel := by
 rw [Kernel.iunlockput_opened]
 rfl

variable {left : ℕ} {ip : Inode}

omit [DecidableEq Inode] in
theorem Leads.unique {target other : Inode} (leads : Leads fs left ip target)
 (again : Leads fs left ip other) : target = other := by
 induction leads with
 | here last =>
  cases again with
  | here _ => rfl
  | link isLink _ _ _ => exact absurd isLink last
 | link isLink read found _ ih =>
  cases again with
  | here last => exact absurd isLink last
  | link _ readAgain foundAgain later =>
   simp_all

omit [DecidableEq Inode] in
theorem Leads.eq_of_ne {target : Inode} (leads : Leads fs left ip target)
 (last : fs.type ip ≠ .symlink) : target = ip :=
 leads.unique (.here last)

theorem follow_of_ne (last : fs.type ip ≠ .symlink) (kernel : Kernel Inode) :
 follow fs oNofollow omode left ip kernel = (some ip, kernel) := by
 cases left with
 | zero => exact if_neg last
 | succ left => exact if_neg last

theorem follow_spec (follows : omode &&& oNofollow = 0) (left : ℕ) (ip : Inode)
 (kernel : Kernel Inode) :
 (∀ target, Leads fs left ip target →
  follow fs oNofollow omode left ip (kernel.opened ip) = (some target, kernel.opened target)) ∧
 ((∀ target, ¬Leads fs left ip target) →
  follow fs oNofollow omode left ip (kernel.opened ip) = (none, kernel)) := by
 induction left generalizing ip with
 | zero =>
  refine ⟨fun target leads => ?_, fun astray => ?_⟩
  · cases leads with
    | here last => exact follow_of_ne last _
  · by_cases isLink : fs.type ip = .symlink
    · rw [follow, if_pos isLink, Kernel.endOp_opened]
    · exact absurd (.here isLink) (astray ip)
 | succ left ih =>
  refine ⟨fun target leads => ?_, fun astray => ?_⟩
  · cases leads with
    | here last => exact follow_of_ne last _
    | @link _ _ next _ linkTarget isLink read found later =>
     rw [follow, if_pos isLink, read]
     dsimp only
     rw [if_neg fun flag => flag follows, found]
     rw [Kernel.iunlockput_opened]
     exact (ih next).1 target later
  · by_cases isLink : fs.type ip = .symlink
    · rw [follow, if_pos isLink]
      cases read : fs.readi ip with
      | none => exact congrArg (Prod.mk none) (kernel.endOp_opened ip)
      | some linkTarget =>
       dsimp only
       rw [if_neg fun flag => flag follows]
       cases found : fs.namei linkTarget with
       | none => exact congrArg (Prod.mk none) (kernel.endOp_opened ip)
       | some next =>
        rw [Kernel.iunlockput_opened]
        exact (ih next).2 fun target later =>
         astray target (.link isLink read found later)
    · exact absurd (.here isLink) (astray ip)

theorem follow_symlink (flag : omode &&& oNofollow ≠ 0) (isLink : fs.type ip = .symlink)
 (kernel : Kernel Inode) :
 (follow fs oNofollow omode left ip kernel).1 = none := by
 cases left with
 | zero => rw [follow, if_pos isLink]
 | succ left =>
  rw [follow, if_pos isLink]
  cases fs.readi ip with
  | none => rfl
  | some linkTarget =>
   dsimp only
   rw [if_pos flag]

variable {path : Path} {kernel : Kernel Inode} {first : Inode}

theorem sysOpen_found (found : fs.namei path = some first) :
 sysOpen fs oNofollow omode path kernel =
  if fs.type first = .dir ∧ omode ≠ oRdonly then (none, kernel)
  else follow fs oNofollow omode 10 first (kernel.opened first) := by
 rw [sysOpen, found]
 change (if _ then (none, ((kernel.opened first).iunlockput first).endOp) else _) = _
 rw [Kernel.endOp_opened]
 rfl

omit [DecidableEq Inode] in
theorem opens_unique {other : Inode} (opens : Opens fs oNofollow omode path ip)
 (again : Opens fs oNofollow omode path other) : ip = other := by
 by_cases flag : omode &&& oNofollow = 0
 · obtain ⟨start, found, leads⟩ := opens.2.1 flag
   obtain ⟨startAgain, foundAgain, leadsAgain⟩ := again.2.1 flag
   rw [found] at foundAgain
   cases foundAgain
   exact leads.unique leadsAgain
 · exact Option.some.inj ((opens.1 flag).symm.trans (again.1 flag))

theorem correct_of_opens (opens : Opens fs oNofollow omode path ip) :
 Correct fs oNofollow omode path kernel ↔
  sysOpen fs oNofollow omode path kernel = (some ip, kernel.opened ip) := by
 constructor
 · intro correct
   exact correct.opened ip opens
 · intro opened
   refine ⟨fun other again => ?_, fun nothing => absurd opens (nothing ip)⟩
   rw [opens_unique again opens]
   exact opened

theorem correct_of_not_opens (nothing : ∀ ip, ¬Opens fs oNofollow omode path ip) :
 Correct fs oNofollow omode path kernel ↔
  sysOpen fs oNofollow omode path kernel = (none, kernel) := by
 constructor
 · intro correct
   exact correct.failed nothing
 · intro failed
   exact ⟨fun ip opens => absurd opens (nothing ip), fun _ => failed⟩

theorem correct_of_refused (refused : ∀ first, fs.namei path = some first →
 fs.type first = .dir ∧ omode ≠ oRdonly) : Correct fs oNofollow omode path kernel := by
 have nothing : ∀ ip, ¬Opens fs oNofollow omode path ip := by
  intro ip opens
  by_cases flag : omode &&& oNofollow = 0
  · obtain ⟨first, found, leads⟩ := opens.2.1 flag
    obtain ⟨isDir, writes⟩ := refused first found
    have same := leads.eq_of_ne fun isLink => by rw [isDir] at isLink; cases isLink
    exact writes (opens.2.2 (same ▸ isDir))
  · obtain ⟨isDir, writes⟩ := refused ip (opens.1 flag)
    exact writes (opens.2.2 isDir)
 rw [correct_of_not_opens nothing]
 cases found : fs.namei path with
 | none =>
  rw [sysOpen, found]
  rfl
 | some first => rw [sysOpen_found found, if_pos (refused first found)]

theorem correct_iff_of_flag (flag : omode &&& oNofollow ≠ 0) (found : fs.namei path = some first)
 (allowed : ¬(fs.type first = .dir ∧ omode ≠ oRdonly)) :
 Correct fs oNofollow omode path kernel ↔ fs.type first ≠ .symlink := by
 have opens : Opens fs oNofollow omode path first := by
  refine ⟨fun _ => found, fun none => absurd none flag, fun isDir => ?_⟩
  by_contra writes
  exact allowed ⟨isDir, writes⟩
 rw [correct_of_opens opens, sysOpen_found found, if_neg allowed]
 constructor
 · intro opened isLink
   have refused : (follow fs oNofollow omode 10 first (kernel.opened first)).1 = none :=
    follow_symlink flag isLink _
   rw [opened] at refused
   cases refused
 · exact fun last => follow_of_ne last _

theorem correct_iff_of_follows (follows : omode &&& oNofollow = 0)
 (found : fs.namei path = some first) (allowed : ¬(fs.type first = .dir ∧ omode ≠ oRdonly)) :
 Correct fs oNofollow omode path kernel ↔
  ∀ ip, Leads fs 10 first ip → fs.type ip = .dir → omode = oRdonly := by
 obtain ⟨reached, astray⟩ := @follow_spec _ _ _ fs oNofollow omode follows 10 first kernel
 have called : sysOpen fs oNofollow omode path kernel =
  follow fs oNofollow omode 10 first (kernel.opened first) := by
  rw [sysOpen_found found, if_neg allowed]
 by_cases leads : ∃ ip, Leads fs 10 first ip
 · obtain ⟨ip, leads⟩ := leads
   have only : (∀ ip, Leads fs 10 first ip → fs.type ip = .dir → omode = oRdonly) ↔
    (fs.type ip = .dir → omode = oRdonly) :=
    ⟨fun all => all ip leads, fun here other again => leads.unique again ▸ here⟩
   rw [only]
   constructor
   · intro correct isDir
     by_contra writes
     have nothing : ∀ other, ¬Opens fs oNofollow omode path other := by
      intro other opens
      obtain ⟨start, again, leadsAgain⟩ := opens.2.1 follows
      rw [found] at again
      cases again
      exact writes (opens.2.2 (leads.unique leadsAgain ▸ isDir))
     have failed := correct.failed nothing
     grind
   · intro reads
     have opens : Opens fs oNofollow omode path ip :=
      ⟨fun flag => absurd follows flag, fun _ => ⟨first, found, leads⟩, reads⟩
     rw [correct_of_opens opens, called, reached ip leads]
 · have none : ∀ ip, ¬Leads fs 10 first ip := fun ip there => leads ⟨ip, there⟩
   have nothing : ∀ ip, ¬Opens fs oNofollow omode path ip := by
    intro ip opens
    obtain ⟨start, again, there⟩ := opens.2.1 follows
    rw [found] at again
    cases again
    exact none ip there
   rw [correct_of_not_opens nothing, called, astray none]
   simp_all

/-- The call opens what it is to open, or fails and leaves nothing behind, unless the path is a
link that is not to be followed, or one that leads to a directory that is not only to be read. -/
theorem correct_iff (path : Path) (kernel : Kernel Inode) :
 Correct fs oNofollow omode path kernel ↔ ¬Misled fs oNofollow omode path := by
 by_cases refused : ∀ first, fs.namei path = some first → fs.type first = .dir ∧ omode ≠ oRdonly
 · refine iff_of_true (correct_of_refused refused) fun misled => ?_
   obtain ⟨first, found, isLink, -⟩ := misled
   simp_all
 · obtain ⟨first, refused⟩ := not_forall.mp refused
   obtain ⟨found, allowed⟩ := Classical.not_imp.mp refused
   have only : Misled fs oNofollow omode path ↔ fs.type first = .symlink ∧
    (omode &&& oNofollow ≠ 0 ∨
     (omode ≠ oRdonly ∧ ∃ ip, Leads fs 10 first ip ∧ fs.type ip = .dir)) := by
    constructor
    · intro misled
      obtain ⟨start, again, rest⟩ := misled
      simp_all
    · exact fun rest => ⟨first, found, rest⟩
   rw [only]
   by_cases follows : omode &&& oNofollow = 0
   · rw [correct_iff_of_follows follows found allowed]
     constructor
     · intro reads misled
       rcases misled.2 with flag | ⟨writes, ip, leads, isDir⟩
       · exact flag follows
       · exact writes (reads ip leads isDir)
     · intro sound ip leads isDir
       by_contra writes
       by_cases isLink : fs.type first = .symlink
       · simp_all
       · rw [leads.eq_of_ne isLink] at isDir
         exact allowed ⟨isDir, writes⟩
   · rw [correct_iff_of_flag follows found allowed]
     simp_all

/-- The path 0 names a link to the path 1, which names a directory. -/
def linkedDirectory : FileSystem ℕ ℕ where
 type ip := if ip = 0 then .symlink else .dir
 namei path := some path
 readi _ := some 1

/-- The directory is opened for writing through the link. -/
theorem not_correct_linkedDirectory :
 ¬Correct linkedDirectory 0x800 1 0 ⟨fun _ => 0, [], 0⟩ := by
 intro correct
 have nothing : ∀ ip, ¬Opens linkedDirectory 0x800 1 0 ip := by
  intro ip opens
  obtain ⟨first, found, leads⟩ := opens.2.1 (by decide)
  cases found
  have leadsDir : Leads linkedDirectory 10 0 1 := .link rfl rfl rfl (.here (by decide))
  have reads := opens.2.2 (leadsDir.unique leads ▸ rfl)
  cases reads
 have failed := congrArg Prod.fst (correct.failed nothing)
 cases (show some 1 = none from failed)

end MyNotes.Xv6.SymlinkOpen
