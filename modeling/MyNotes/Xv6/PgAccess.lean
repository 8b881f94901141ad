/-
`sys_pgaccess` of lab 3 and the `walk` that it calls.

A page table is the tree that `walk` goes down: a PTE of an upper table comes with the table that
it points to, and a pointer to a PTE of the lowest level is the three indices on the way there.
`int` arithmetic wraps, and a shift of an `int` takes the low five bits of its distance, as the
instructions of the machine do.  A panic has no result.
-/

import Mathlib.Data.Int.Notation
import Mathlib.Data.Nat.Notation
import Mathlib.Logic.Function.Basic

namespace MyNotes.Xv6.PgAccess

open Function Option BitVec

abbrev Pte := BitVec 64

def pteV : Pte := 1

def pteA : Pte := 1 <<< 6

def maxva : ℕ := 0x4000000000

def pgsize : ℕ := 4096

/-- A table with the PTEs of a level above the lowest. -/
structure Upper (Table : Type) where
 pte : ℕ → Pte
 table : ℕ → Table

abbrev PageTable := Upper (Upper (ℕ → Pte))

structure Slot where
 top : ℕ
 middle : ℕ
 low : ℕ
 deriving DecidableEq

/-- `PX(level, va)` -/
def px (level : ℕ) (va : BitVec 64) : ℕ := (va >>> (12 + 9 * level) &&& 0x1FF).toNat

namespace PageTable

def read (self : PageTable) (slot : Slot) : Pte :=
 (self.table slot.top).table slot.middle slot.low

def write (self : PageTable) (slot : Slot) (pte : Pte) : PageTable :=
 let middle := self.table slot.top
 let low := update (middle.table slot.middle) slot.low pte
 { self with
  table := update self.table slot.top
   { middle with table := update middle.table slot.middle low } }

/-- `walk` without `alloc`; the pointer is `none` for 0. -/
def walk (self : PageTable) (va : BitVec 64) : Option (Option Slot) :=
 if maxva ≤ va.toNat then none
 else if self.pte (px 2 va) &&& pteV = 0 then some none
 else if (self.table (px 2 va)).pte (px 1 va) &&& pteV = 0 then some none
 else some (some ⟨px 2 va, px 1 va, px 0 va⟩)

end PageTable

/-- `vaddr+i*PGSIZE` -/
def address (vaddr : BitVec 64) (i : ℕ) : BitVec 64 :=
 vaddr + (BitVec.ofNat 32 i * 4096).signExtend 64

/-- `1<<i`, as it is put into the mask. -/
def bit (i : ℕ) : BitVec 64 := (1#32 <<< (i % 32)).signExtend 64

def check (vaddr : BitVec 64) (i : ℕ) (pagetable : PageTable) (mask : BitVec 64) :
 Option (PageTable × BitVec 64) :=
 (pagetable.walk (address vaddr i)).map fun pte =>
  match pte with
  | none => (pagetable, mask)
  | some slot =>
   if pagetable.read slot &&& pteA ≠ 0 then
    (pagetable.write slot (pagetable.read slot &&& ~~~pteA), mask ||| bit i)
   else (pagetable, mask)

/-- The loop up to `i < num`. -/
def scan (vaddr : BitVec 64) (pagetable : PageTable) : ℕ → Option (PageTable × BitVec 64)
 | 0 => some (pagetable, 0)
 | num + 1 => (scan vaddr pagetable num).bind fun before => check vaddr num before.1 before.2

/-- The arguments, `none` where `argaddr` or `argint` fails, and whether `copyout` can write to
`uaddr`. -/
structure Call where
 vaddr : Option (BitVec 64)
 num : Option (BitVec 32)
 uaddr : Option (BitVec 64)
 copyout : Bool

structure Result where
 value : ℤ
 pagetable : PageTable
 /-- The mask at `uaddr`. -/
 copied : Option (BitVec 64)

def sysPgaccess (call : Call) (pagetable : PageTable) : Option Result :=
 match call.vaddr, call.num, call.uaddr with
 | some vaddr, some num, some _ =>
  (scan vaddr pagetable num.toInt.toNat).map fun after =>
   if call.copyout then ⟨0, after.1, some after.2⟩ else ⟨-1, after.1, none⟩
 | _, _, _ => some ⟨-1, pagetable, none⟩

/-! ### What the call is to do -/

/-- The page has a PTE with `PTE_A`. -/
def Accessed (pagetable : PageTable) (slot : Slot) (va : BitVec 64) : Prop :=
 pagetable.walk va = some (some slot) ∧ pagetable.read slot &&& pteA ≠ 0

/-- The address of the page with the number `i`. -/
def page (vaddr : BitVec 64) (i : ℕ) : BitVec 64 := vaddr + BitVec.ofNat 64 (i * pgsize)

/-- One of the first `num` pages has its PTE in the slot, with `PTE_A`. -/
def Reported (pagetable : PageTable) (vaddr : BitVec 64) (num : ℕ) (slot : Slot) : Prop :=
 ∃ i < num, Accessed pagetable slot (page vaddr i)

/-- The mask and the page table that the call is to leave for `num` pages. -/
structure Exact (before : PageTable) (vaddr : BitVec 64) (num : ℕ) (after : PageTable)
 (mask : BitVec 64) : Prop where
 mask : ∀ i < 64, mask.getLsbD i = true ↔
  i < num ∧ ∃ slot, Accessed before slot (page vaddr i)
 cleared : ∀ slot, Reported before vaddr num slot →
  after.read slot = before.read slot &&& ~~~pteA
 kept : ∀ slot, ¬ Reported before vaddr num slot → after.read slot = before.read slot
 top : after.pte = before.pte
 middle : ∀ index, (after.table index).pte = (before.table index).pte

/-- The kernel does not panic, and a call for up to 64 pages that returns 0 is exact. -/
structure Correct (call : Call) (before : PageTable) : Prop where
 returns : ∃ result, sysPgaccess call before = some result
 exact : ∀ vaddr num after mask, call.vaddr = some vaddr → call.num = some num →
  sysPgaccess call before = some ⟨0, after, some mask⟩ → 0 ≤ num.toInt → num.toInt ≤ 64 →
   Exact before vaddr num.toInt.toNat after mask

/-- No page is at `MAXVA` or above, and of up to 64 pages only the first 31 have been accessed, or
all 64. -/
def Within (call : Call) (before : PageTable) : Prop :=
 ∀ vaddr num uaddr, call.vaddr = some vaddr → call.num = some num → call.uaddr = some uaddr →
  (∀ i < num.toInt.toNat, (address vaddr i).toNat < maxva) ∧
   (0 ≤ num.toInt → num.toInt ≤ 64 → call.copyout = true →
    (∀ i < num.toInt.toNat, ∀ slot, Accessed before slot (page vaddr i) → i < 31) ∨
    ∀ i < 64, i < num.toInt.toNat ∧ ∃ slot, Accessed before slot (page vaddr i))

/-! ### Addresses -/

variable {pagetable before after : PageTable} {vaddr va other mask : BitVec 64} {slot : Slot}
 {num i j : ℕ} {pte : Pte}

theorem px_eq (level : ℕ) (va : BitVec 64) :
 px level va = va.toNat >>> (12 + 9 * level) % 512 := by
 unfold px
 rw [toNat_and, toNat_ushiftRight]
 exact Nat.and_two_pow_sub_one_eq_mod _ 9

theorem page_eq_of_px (below : va.toNat < maxva) (otherBelow : other.toNat < maxva)
 (top : px 2 va = px 2 other) (middle : px 1 va = px 1 other) (low : px 0 va = px 0 other) :
 va.toNat / pgsize = other.toNat / pgsize := by
 rw [px_eq, px_eq, Nat.shiftRight_eq_div_pow, Nat.shiftRight_eq_div_pow] at top middle low
 unfold maxva at below otherBelow
 unfold pgsize
 omega

theorem address_eq_page (small : i < 64) : address vaddr i = page vaddr i := by
 unfold address page pgsize
 congr 1
 apply BitVec.eq_of_toNat_eq
 have product : (BitVec.ofNat 32 i * 4096).toNat = i * 4096 := by
  rw [BitVec.toNat_mul, BitVec.toNat_ofNat]
  change i % 4294967296 * 4096 % 4294967296 = i * 4096
  omega
 grind

theorem page_toNat (below : vaddr.toNat < maxva) (small : i < 64) :
 (page vaddr i).toNat = vaddr.toNat + i * pgsize := by
 unfold maxva at below
 unfold page pgsize
 grind

/-! ### Page tables -/

namespace PageTable

theorem walk_eq_none_iff : pagetable.walk va = none ↔ maxva ≤ va.toNat := by
 unfold walk
 split
 · rename_i high
   exact iff_of_true rfl high
 · rename_i low
   split
   · exact iff_of_false (some_ne_none _) low
   · split
     · exact iff_of_false (some_ne_none _) low
     · exact iff_of_false (some_ne_none _) low

theorem walk_some (found : pagetable.walk va = some (some slot)) :
 va.toNat < maxva ∧ slot = ⟨px 2 va, px 1 va, px 0 va⟩ := by
 unfold walk at found
 split at found
 · cases found
 · rename_i low
   split at found
   · cases found
   · split at found
     · cases found
     · simp_all

theorem walk_congr (top : after.pte = before.pte)
 (middle : ∀ index, (after.table index).pte = (before.table index).pte) (va : BitVec 64) :
 after.walk va = before.walk va := by
 unfold walk
 rw [top, middle]

theorem write_middle (index : ℕ) :
 ((pagetable.write slot pte).table index).pte = (pagetable.table index).pte := by
 unfold write
 dsimp only
 by_cases same : index = slot.top
 · rw [same, update_self]
 · rw [update_of_ne same]

theorem read_write_self : (pagetable.write slot pte).read slot = pte := by
 unfold write read
 simp

theorem read_write_other {place : Slot} (apart : place ≠ slot) :
 (pagetable.write slot pte).read place = pagetable.read place := by
 unfold write read
 dsimp only
 by_cases top : place.top = slot.top
 · rw [top, update_self]
   dsimp only
   by_cases middle : place.middle = slot.middle
   · rw [middle, update_self]
     by_cases low : place.low = slot.low
     · refine absurd ?_ apart
       cases place
       simp_all
     · rw [update_of_ne low]
   · rw [update_of_ne middle]
 · rw [update_of_ne top]

end PageTable

theorem slot_injective (low : vaddr.toNat < maxva) (small : i < 64) (otherSmall : j < 64)
 (found : pagetable.walk (page vaddr i) = some (some slot))
 (also : pagetable.walk (page vaddr j) = some (some slot)) : i = j := by
 obtain ⟨below, same⟩ := PageTable.walk_some found
 obtain ⟨otherBelow, otherSame⟩ := PageTable.walk_some also
 cases same
 obtain ⟨top, middle, low'⟩ := Slot.mk.inj otherSame
 have pages := page_eq_of_px below otherBelow top middle low'
 rw [page_toNat low small, page_toNat low otherSmall] at pages
 unfold pgsize at pages
 omega

/-! ### The loop -/

theorem check_isSome (vaddr : BitVec 64) (i : ℕ) (mask : BitVec 64) :
 (check vaddr i pagetable mask).isSome = true ↔ (address vaddr i).toNat < maxva := by
 unfold check
 rw [isSome_map, isSome_iff_ne_none, Ne, PageTable.walk_eq_none_iff, Nat.not_le]

theorem scan_isSome : (scan vaddr pagetable num).isSome = true ↔
 ∀ i < num, (address vaddr i).toNat < maxva := by
 induction num with
 | zero => exact iff_of_true rfl fun i before => absurd before (Nat.not_lt_zero i)
 | succ num ih =>
  rw [Nat.forall_lt_succ_right, ← ih, scan]
  cases scan vaddr pagetable num with
  | none => simp
  | some before =>
   rw [bind_some, check_isSome]
   exact (and_iff_right rfl).symm

/-- What the loop has done for the first `num` pages. -/
structure Scanned (before : PageTable) (vaddr : BitVec 64) (num : ℕ) (after : PageTable)
 (mask : BitVec 64) : Prop where
 mask : ∀ b, mask.getLsbD b = true ↔
  ∃ i < num, (∃ slot, Accessed before slot (page vaddr i)) ∧ (bit i).getLsbD b = true
 cleared : ∀ slot, Reported before vaddr num slot →
  after.read slot = before.read slot &&& ~~~pteA
 kept : ∀ slot, ¬ Reported before vaddr num slot → after.read slot = before.read slot
 top : after.pte = before.pte
 middle : ∀ index, (after.table index).pte = (before.table index).pte

theorem vaddr_low (low : ∀ i < num, (address vaddr i).toNat < maxva) (some : 0 < num) :
 vaddr.toNat < maxva := by
 have first := low 0 some
 rw [address_eq_page (by omega), page, Nat.zero_mul, BitVec.add_zero] at first
 exact first

theorem Scanned.skip (scanned : Scanned before vaddr num after mask)
 (unused : ∀ slot, ¬ Accessed before slot (page vaddr num)) :
 Scanned before vaddr (num + 1) after mask := by
 have earlier {holds : ℕ → Prop} (absent : ¬ holds num) :
  (∃ i < num + 1, holds i) ↔ ∃ i < num, holds i := by
  rw [Nat.exists_lt_succ_right, or_iff_left absent]
 refine ⟨fun b => ?_, fun slot reported => ?_, fun slot unreported => ?_, scanned.top,
  scanned.middle⟩
 · rw [earlier fun both => both.1.elim unused]
   exact scanned.mask b
 · exact scanned.cleared slot ((earlier (unused slot)).mp reported)
 · exact scanned.kept slot fun reported => unreported ((earlier (unused slot)).mpr reported)

theorem Scanned.mark (scanned : Scanned before vaddr num after mask)
 (here : Accessed before slot (page vaddr num)) (first : ¬ Reported before vaddr num slot) :
 Scanned before vaddr (num + 1) (after.write slot (after.read slot &&& ~~~pteA))
  (mask ||| bit num) := by
 refine ⟨fun b => ?_, fun place reported => ?_, fun place unreported => ?_, scanned.top,
  fun index => (PageTable.write_middle index).trans (scanned.middle index)⟩
 · rw [BitVec.getLsbD_or, Bool.or_eq_true, scanned.mask, Nat.exists_lt_succ_right]
   grind
 · by_cases same : place = slot
   · rw [same, PageTable.read_write_self, scanned.kept slot first]
   · rw [PageTable.read_write_other same]
     rcases Nat.exists_lt_succ_right.mp reported with earlier | last
     · exact scanned.cleared place earlier
     · exact absurd (some.inj (some.inj (last.1.symm.trans here.1))) same
 · have apart : place ≠ slot := fun same =>
    unreported ⟨num, Nat.lt_succ_self num, same ▸ here⟩
   rw [PageTable.read_write_other apart]
   refine scanned.kept place fun ⟨i, earlier, accessed⟩ => unreported ?_
   exact ⟨i, Nat.lt_succ_of_lt earlier, accessed⟩

theorem scan_spec (small : num ≤ 64) (low : ∀ i < num, (address vaddr i).toNat < maxva)
 (scanned : scan vaddr before num = some (after, mask)) :
 Scanned before vaddr num after mask := by
 induction num generalizing after mask with
 | zero =>
  cases scanned
  refine ⟨fun b => ?_, fun slot reported => ?_, fun slot _ => rfl, rfl, fun _ => rfl⟩
  · simp
  · obtain ⟨i, none, -⟩ := reported
    exact absurd none (Nat.not_lt_zero i)
 | succ num ih =>
  have below := vaddr_low low (Nat.succ_pos num)
  obtain ⟨⟨middle, part⟩, scannedBefore, checked⟩ := bind_eq_some_iff.mp scanned
  have kept := ih (Nat.le_of_succ_le small)
   (fun i earlier => low i (Nat.lt_succ_of_lt earlier)) scannedBefore
  obtain ⟨pointer, walked, same⟩ := map_eq_some_iff.mp checked
  rw [address_eq_page small, PageTable.walk_congr kept.top kept.middle] at walked
  cases pointer with
  | none =>
   cases same
   refine kept.skip fun slot accessed => ?_
   cases walked.symm.trans accessed.1
  | some slot =>
   have first : ¬ Reported before vaddr num slot := by
    rintro ⟨i, earlier, accessed, -⟩
    have equal := slot_injective below (by omega) small accessed walked
    exact Nat.ne_of_lt earlier equal
   dsimp only at same
   split at same
   · rename_i accessed
     cases same
     rw [kept.kept slot first] at accessed
     exact kept.mark ⟨walked, accessed⟩ first
   · rename_i unused
     cases same
     rw [kept.kept slot first] at unused
     refine kept.skip fun other accessed => unused ?_
     cases walked.symm.trans accessed.1
     exact accessed.2

/-! ### The mask -/

theorem one_shiftLeft_getLsbD (i b : ℕ) (small : b < 32) :
 (1#32 <<< (i % 32)).getLsbD b = decide (b = i % 32) := by
 have distance : i % 32 < 32 := Nat.mod_lt i (by decide)
 grind

theorem bit_getLsbD (i b : ℕ) : (bit i).getLsbD b = true ↔
 b < 64 ∧ (b = i % 32 ∨ 32 ≤ b ∧ i % 32 = 31) := by
 unfold bit
 rw [getLsbD_signExtend, msb_eq_getLsbD_last,
  one_shiftLeft_getLsbD i 31 (by decide), Bool.and_eq_true, decide_eq_true_eq]
 refine and_congr_right fun _ => ?_
 split
 · grind
 · grind

theorem bits_exact_iff (accessed : ℕ → Prop) (small : num ≤ 64) :
 (∀ b < 64, (∃ i < num, accessed i ∧ (bit i).getLsbD b = true) ↔ b < num ∧ accessed b) ↔
  (∀ i < num, accessed i → i < 31) ∨ ∀ i < 64, i < num ∧ accessed i := by
 constructor
 · intro exact
   have sign (i : ℕ) (within : i < num) (here : accessed i) (last : i % 32 = 31) :
    ∀ b < 64, b < num ∧ accessed b := by
    have upper (b : ℕ) (high : 32 ≤ b) (inside : b < 64) : b < num ∧ accessed b :=
     (exact b inside).mp ⟨i, within, here,
      (bit_getLsbD i b).mpr ⟨inside, .inr ⟨high, last⟩⟩⟩
    intro b inside
    by_cases high : 32 ≤ b
    · exact upper b high inside
    · obtain ⟨there, other⟩ := upper (b + 32) (by omega) (by omega)
      exact (exact b inside).mp ⟨b + 32, there, other,
       (bit_getLsbD (b + 32) b).mpr ⟨inside, .inl (by omega)⟩⟩
   by_cases some : ∃ i < num, accessed i ∧ i % 32 = 31
   · grind
   · refine .inl fun i within here => ?_
     by_contra high
     have other : i % 32 ≠ 31 := fun last => some ⟨i, within, here, last⟩
     obtain ⟨j, inside, there, bits⟩ := (exact i (by omega)).mpr ⟨within, here⟩
     rcases ((bit_getLsbD j i).mp bits).2 with same | ⟨-, last⟩
     · omega
     · exact some ⟨j, inside, there, last⟩
 · rintro (low | all) b inside
   · constructor
     · rintro ⟨i, within, here, bits⟩
       have before := low i within here
       rcases ((bit_getLsbD i b).mp bits).2 with same | ⟨-, last⟩
       · rw [Nat.mod_eq_of_lt (by omega)] at same
         exact same ▸ ⟨within, here⟩
       · omega
     · rintro ⟨within, here⟩
       have before := low b within here
       exact ⟨b, within, here, (bit_getLsbD b b).mpr ⟨inside, .inl (by omega)⟩⟩
   · refine iff_of_true ?_ (all b inside)
     by_cases high : 32 ≤ b
     · exact ⟨31, (all 31 (by omega)).1, (all 31 (by omega)).2,
        (bit_getLsbD 31 b).mpr ⟨inside, .inr ⟨high, rfl⟩⟩⟩
     · exact ⟨b, (all b inside).1, (all b inside).2,
        (bit_getLsbD b b).mpr ⟨inside, .inl (by omega)⟩⟩

theorem Scanned.exact_iff (scanned : Scanned before vaddr num after mask) (small : num ≤ 64) :
 Exact before vaddr num after mask ↔
  (∀ i < num, ∀ slot, Accessed before slot (page vaddr i) → i < 31) ∨
   ∀ i < 64, i < num ∧ ∃ slot, Accessed before slot (page vaddr i) := by
 have bits := bits_exact_iff (fun i => ∃ slot, Accessed before slot (page vaddr i)) small
 simp only [← scanned.mask, forall_exists_index] at bits
 rw [← bits]
 constructor
 · intro exact
   exact exact.mask
 · intro same
   exact ⟨same, scanned.cleared, scanned.kept, scanned.top, scanned.middle⟩

variable {call : Call} {count : BitVec 32} {uaddr : BitVec 64}

theorem sysPgaccess_eq (before : PageTable) (hasVaddr : call.vaddr = some vaddr)
 (hasNum : call.num = some count) (hasUaddr : call.uaddr = some uaddr) :
 sysPgaccess call before = (scan vaddr before count.toInt.toNat).map fun after =>
  if call.copyout then ⟨0, after.1, some after.2⟩ else ⟨-1, after.1, none⟩ := by
 unfold sysPgaccess
 rw [hasVaddr, hasNum, hasUaddr]

theorem sysPgaccess_missing
 (missing : call.vaddr = none ∨ call.num = none ∨ call.uaddr = none) :
 sysPgaccess call before = some ⟨-1, before, none⟩ := by
 unfold sysPgaccess
 split
 · simp_all
 · rfl

/-- A call is correct exactly when all pages are below `MAXVA`, and no page from the 31st on has
been accessed unless all 64 have. -/
theorem pgaccess_correct_iff (call : Call) (before : PageTable) :
 Correct call before ↔ Within call before := by
 constructor
 · intro correct vaddr count uaddr hasVaddr hasNum hasUaddr
   have called := sysPgaccess_eq before hasVaddr hasNum hasUaddr
   obtain ⟨result, returned⟩ := correct.returns
   obtain ⟨⟨after, mask⟩, scanned, -⟩ := map_eq_some_iff.mp (called.symm.trans returned)
   have low := scan_isSome.mp (isSome_iff_exists.mpr ⟨_, scanned⟩)
   refine ⟨low, fun positive small copied => ?_⟩
   rw [scanned, map_some, if_pos copied] at called
   have few : count.toInt.toNat ≤ 64 := by omega
   exact ((scan_spec few low scanned).exact_iff few).mp
    (correct.exact vaddr count after mask hasVaddr hasNum called positive small)
 · intro within
   constructor
   · by_cases missing : call.vaddr = none ∨ call.num = none ∨ call.uaddr = none
     · exact ⟨_, sysPgaccess_missing missing⟩
     · obtain ⟨noVaddr, rest⟩ := not_or.mp missing
       obtain ⟨noNum, noUaddr⟩ := not_or.mp rest
       obtain ⟨vaddr, hasVaddr⟩ := ne_none_iff_exists'.mp noVaddr
       obtain ⟨count, hasNum⟩ := ne_none_iff_exists'.mp noNum
       obtain ⟨uaddr, hasUaddr⟩ := ne_none_iff_exists'.mp noUaddr
       have low := (within vaddr count uaddr hasVaddr hasNum hasUaddr).1
       obtain ⟨after, scanned⟩ := isSome_iff_exists.mp (scan_isSome.mpr low)
       rw [sysPgaccess_eq _ hasVaddr hasNum hasUaddr, scanned]
       exact ⟨_, rfl⟩
   · intro vaddr count after mask hasVaddr hasNum returned positive small
     cases hasUaddr : call.uaddr with
     | none =>
      rw [sysPgaccess_missing (.inr (.inr hasUaddr))] at returned
      cases returned
     | some uaddr =>
      rw [sysPgaccess_eq _ hasVaddr hasNum hasUaddr] at returned
      obtain ⟨⟨table, bits⟩, scanned, same⟩ := map_eq_some_iff.mp returned
      obtain ⟨low, reported⟩ := within vaddr count uaddr hasVaddr hasNum hasUaddr
      have few : count.toInt.toNat ≤ 64 := by omega
      split at same
      · rename_i copied
        cases same
        exact ((scan_spec few low scanned).exact_iff few).mpr (reported positive small copied)
      · cases same

/-- A page table in which every page has been accessed. -/
def accessedTable : PageTable := ⟨fun _ => 1, fun _ => ⟨fun _ => 1, fun _ _ => 0x41⟩⟩

/-- Of 32 pages the last one sets the upper half of the mask, and an address at `MAXVA` makes the
kernel panic. -/
theorem pgaccess_incorrect :
 ¬ Correct ⟨some 0, some 32, some 0, true⟩ accessedTable ∧
  ¬ Correct ⟨some 0x4000000000, some 1, some 0, true⟩ accessedTable := by
 constructor
 · have called : (sysPgaccess ⟨some 0, some 32, some 0, true⟩ accessedTable).map
    (fun result => (result.value, result.copied)) = some (0, some (-1)) := by
    decide +kernel
   obtain ⟨⟨value, after, copied⟩, returned, same⟩ := map_eq_some_iff.mp called
   cases same
   intro correct
   have exact := correct.exact 0 32 after (-1) rfl rfl returned (by decide) (by decide)
   exact absurd ((exact.mask 32 (by decide)).mp rfl).1 (by decide)
 · intro correct
   obtain ⟨result, returned⟩ := correct.returns
   cases returned

end MyNotes.Xv6.PgAccess
