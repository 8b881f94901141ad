/-
Stop-the-world garbage collection of project 4, and the walks of its readers.

The transaction map is a function; its loop treats every transaction by itself.  A
walk along a version chain has fuel from the timestamp of its first log, and running
out of it is no result.
-/

import MyNotes.Cmu15445.UndoLog
import Mathlib.Data.List.Perm.Subperm
import Mathlib.Data.List.Pairwise
import Mathlib.Data.List.Flatten

namespace MyNotes.Cmu15445

open Function List Option Bool

inductive TransactionState where
 | running
 | tainted
 | committed
 | aborted
 deriving DecidableEq

structure Transaction (Value : Type) where
 txnId : TxnId
 state : TransactionState
 undoLogs : List (UndoLog Value)

structure TransactionManager (Value : Type) where
 txnMap : TxnId → Option (Transaction Value)
 versionInfo : RID → Option UndoLink
 tables : List (List (RID × TupleMeta))
 watermark : ℕ

namespace TransactionManager

variable {Value : Type}

section

variable (self : TransactionManager Value)

def getUndoLink (rid : RID) : Option UndoLink :=
 self.versionInfo rid

/-- A link into a transaction that is gone has no log. -/
def getUndoLogOptional (link : UndoLink) : Option (UndoLog Value) :=
 (self.txnMap link.prevTxn).bind fun txn => txn.undoLogs[link.prevLogIdx]?

/-- Timestamps decrease along a chain, so the first one bounds its length. -/
def chainFuel (link : UndoLink) : ℕ :=
 match self.getUndoLogOptional link with
 | none => 1
 | some undoLog => undoLog.ts + 2

end

/-! ### The collector -/

def countChain (self : TransactionManager Value) :
 ℕ → UndoLink → Bool → (TxnId → ℕ) → Option (TxnId → ℕ)
 | 0, _, _, _ => none
 | fuel + 1, undoLink, shouldBeDeleted, invisibleLogNum =>
  if !undoLink.isValid then some invisibleLogNum
  else
   match self.getUndoLogOptional undoLink with
   | none => some invisibleLogNum
   | some undoLog =>
    let invisibleLogNum :=
     if shouldBeDeleted then update invisibleLogNum undoLink.prevTxn
      (invisibleLogNum undoLink.prevTxn + 1)
     else invisibleLogNum
    countChain self fuel undoLog.prevVersion
     (shouldBeDeleted || decide (undoLog.ts ≤ self.watermark)) invisibleLogNum

section

variable (self : TransactionManager Value)

def countTuple (invisibleLogNum : TxnId → ℕ) (tuple : RID × TupleMeta) : Option (TxnId → ℕ) :=
 let shouldBeDeleted := decide (tuple.2.ts ≤ self.watermark)
 match self.getUndoLink tuple.1 with
 | none => some invisibleLogNum
 | some undoLink =>
  self.countChain (self.chainFuel undoLink) undoLink shouldBeDeleted invisibleLogNum

def countTables : Option (TxnId → ℕ) :=
 self.tables.foldlM (fun invisibleLogNum table =>
  table.foldlM self.countTuple invisibleLogNum) fun _ => 0

/-- A transaction goes when it has ended and all its logs were counted. -/
def garbageCollection : Option (TransactionManager Value) := do
 let invisibleLogNum ← self.countTables
 some { self with
  txnMap := fun id => (self.txnMap id).filter fun txn =>
   !(invisibleLogNum txn.txnId = txn.undoLogs.length &&
    (txn.state = .committed || txn.state = .aborted)) }

end

/-! ### Readers -/

/-- What a reader finds: the base tuple, the logs up to its version, the end of the
chain, or a link to a log that is gone. -/
inductive Reading (Value : Type) where
 | base
 | undone (undoLogs : List (UndoLog Value))
 | unseen
 | dangling (link : UndoLink)

def readChain (self : TransactionManager Value) (readTs : ℕ) :
 ℕ → UndoLink → List (UndoLog Value) → Option (Reading Value)
 | 0, _, _ => none
 | fuel + 1, undoLink, undoLogs =>
  if !undoLink.isValid then some .unseen
  else
   match self.getUndoLogOptional undoLink with
   | none => some (.dangling undoLink)
   | some undoLog =>
    if undoLog.ts ≤ readTs then some (.undone (undoLogs ++ [undoLog]))
    else readChain self readTs fuel undoLog.prevVersion (undoLogs ++ [undoLog])

/-- The walk of a reader from the base tuple to the first entry that is not newer. -/
def read (self : TransactionManager Value) (readTs : ℕ) (tuple : RID × TupleMeta) :
 Option (Reading Value) :=
 if tuple.2.ts ≤ readTs then some .base
 else
  match self.getUndoLink tuple.1 with
  | none => some .unseen
  | some undoLink => self.readChain readTs (self.chainFuel undoLink) undoLink []

/-! ### Chains -/

def chain (self : TransactionManager Value) : ℕ → UndoLink → List (UndoLink × UndoLog Value)
 | 0, _ => []
 | fuel + 1, undoLink =>
  if !undoLink.isValid then []
  else
   match self.getUndoLogOptional undoLink with
   | none => []
   | some undoLog => (undoLink, undoLog) :: chain self fuel undoLog.prevVersion

def chainOf (self : TransactionManager Value) (tuple : RID × TupleMeta) :
 List (UndoLink × UndoLog Value) :=
 match self.getUndoLink tuple.1 with
 | none => []
 | some undoLink => self.chain (self.chainFuel undoLink) undoLink

/-- Transactions stand under their ids, timestamps decrease along the chains, and
every log belongs to one place of one chain. -/
structure Chained (manager : TransactionManager Value) : Prop where
 keyed : ∀ id txn, manager.txnMap id = some txn → txn.txnId = id
 decreasing : ∀ link undoLog older, manager.getUndoLogOptional link = some undoLog →
  manager.getUndoLogOptional undoLog.prevVersion = some older → older.ts < undoLog.ts
 separate : (manager.tables.flatten.flatMap fun tuple =>
  (manager.chainOf tuple).map Prod.fst).Nodup

/-- The links that the collector counts in a chain. -/
def counted (watermark : ℕ) : Bool → List (UndoLink × UndoLog Value) → List UndoLink
 | _, [] => []
 | shouldBeDeleted, entry :: rest =>
  (if shouldBeDeleted then [entry.1] else []) ++
   counted watermark (shouldBeDeleted || decide (entry.2.ts ≤ watermark)) rest

def countedOf (self : TransactionManager Value) (tuple : RID × TupleMeta) : List UndoLink :=
 counted self.watermark (decide (tuple.2.ts ≤ self.watermark)) (self.chainOf tuple)

def allCounted (self : TransactionManager Value) : List UndoLink :=
 self.tables.flatten.flatMap self.countedOf

theorem counted_sublist (watermark : ℕ) (shouldBeDeleted : Bool)
 (entries : List (UndoLink × UndoLog Value)) :
 (counted watermark shouldBeDeleted entries).Sublist (entries.map Prod.fst) := by
 induction entries generalizing shouldBeDeleted with
 | nil => exact List.Sublist.refl _
 | cons entry rest ih =>
  cases shouldBeDeleted with
  | true => exact (ih _).cons_cons _
  | false => exact (ih _).cons _

variable {newer : List (UndoLink × UndoLog Value)}

theorem counted_append {watermark : ℕ} {rest : List (UndoLink × UndoLog Value)}
 (new : ∀ entry ∈ newer, watermark < entry.2.ts) :
 counted watermark false (newer ++ rest) = counted watermark false rest := by
 induction newer with
 | nil => rfl
 | cons entry newer ih =>
  have late := new entry mem_cons_self
  rw [cons_append, counted, if_neg Bool.false_ne_true, Bool.false_or,
   decide_eq_false (Nat.not_le.mpr late), nil_append]
  simp_all

variable {self : TransactionManager Value}

def Enough (self : TransactionManager Value) (fuel : ℕ) (link : UndoLink) : Prop :=
 1 ≤ fuel ∧ ∀ undoLog, self.getUndoLogOptional link = some undoLog → undoLog.ts + 1 < fuel

theorem chainFuel_enough (self : TransactionManager Value) (link : UndoLink) :
 self.Enough (self.chainFuel link) link := by
 unfold Enough chainFuel
 cases found : self.getUndoLogOptional link with
 | none => exact ⟨Nat.le_refl 1, fun _ impossible => by cases impossible⟩
 | some undoLog =>
  refine ⟨by dsimp only; omega, fun other same => ?_⟩
  cases same
  exact Nat.lt_succ_self _

variable {fuel : ℕ} {link : UndoLink}

section

variable (chained : self.Chained)
include chained

theorem Chained.enough_older {undoLog : UndoLog Value} (enough : self.Enough (fuel + 1) link)
 (found : self.getUndoLogOptional link = some undoLog) : self.Enough fuel undoLog.prevVersion := by
 have bound := enough.2 undoLog found
 refine ⟨by omega, fun older next => ?_⟩
 have less := chained.decreasing link undoLog older found next
 omega

/-! ### The counts -/

theorem countChain_eq (enough : self.Enough fuel link) (shouldBeDeleted : Bool)
 (invisibleLogNum : TxnId → ℕ) :
 self.countChain fuel link shouldBeDeleted invisibleLogNum = some fun id =>
  invisibleLogNum id + (counted self.watermark shouldBeDeleted (self.chain fuel link)).countP
   fun link => link.prevTxn = id := by
 induction fuel generalizing link shouldBeDeleted invisibleLogNum with
 | zero => exact absurd enough.1 (by omega)
 | succ fuel ih =>
  unfold countChain chain
  by_cases invalid : (!link.isValid) = true
  · rw [if_pos invalid, if_pos invalid]
    rfl
  · rw [if_neg invalid, if_neg invalid]
    cases found : self.getUndoLogOptional link with
    | none => rfl
    | some undoLog =>
     dsimp only
     rw [ih (chained.enough_older enough found)]
     congr 1
     funext id
     rw [counted, countP_append]
     cases shouldBeDeleted with
     | false => simp
     | true =>
      rw [if_pos rfl, if_pos rfl, countP_singleton]
      by_cases own : link.prevTxn = id
      · grind
      · rw [update_of_ne fun same => own same.symm,
         if_neg (by rw [decide_eq_true_iff]; exact own), Nat.zero_add]

theorem countTuple_eq (invisibleLogNum : TxnId → ℕ) (tuple : RID × TupleMeta) :
 self.countTuple invisibleLogNum tuple = some fun id => invisibleLogNum id +
  (self.countedOf tuple).countP fun link => link.prevTxn = id := by
 unfold countTuple countedOf chainOf
 cases self.getUndoLink tuple.1 with
 | none => rfl
 | some undoLink => exact countChain_eq chained (chainFuel_enough self undoLink) _ _

theorem foldlM_countTuple_eq (table : List (RID × TupleMeta)) (invisibleLogNum : TxnId → ℕ) :
 table.foldlM self.countTuple invisibleLogNum = some fun id => invisibleLogNum id +
  (table.flatMap self.countedOf).countP fun link => link.prevTxn = id := by
 induction table generalizing invisibleLogNum with
 | nil => rfl
 | cons tuple rest ih =>
  rw [foldlM_cons, countTuple_eq chained, bind_eq_bind, bind_some, ih]
  grind

theorem countTables_eq :
 self.countTables = some fun id =>
  self.allCounted.countP fun link => link.prevTxn = id := by
 have loop : ∀ (tables : List (List (RID × TupleMeta))) (invisibleLogNum : TxnId → ℕ),
  tables.foldlM (fun invisibleLogNum table => table.foldlM self.countTuple invisibleLogNum)
   invisibleLogNum = some fun id => invisibleLogNum id +
    (tables.flatten.flatMap self.countedOf).countP fun link => link.prevTxn = id := by
  intro tables
  induction tables with
  | nil =>
   intro invisibleLogNum
   rfl
  | cons table rest ih =>
   intro invisibleLogNum
   rw [foldlM_cons, foldlM_countTuple_eq chained, bind_eq_bind, bind_some,
    ih]
   grind
 unfold countTables
 rw [loop]
 congr 1
 funext id
 exact Nat.zero_add _

end

/-! ### What the collector removes -/

theorem chain_cases (self : TransactionManager Value) (fuel : ℕ) (link : UndoLink) :
 self.chain (fuel + 1) link = [] ∨
  ∃ undoLog, ¬(!link.isValid) = true ∧ self.getUndoLogOptional link = some undoLog ∧
   self.chain (fuel + 1) link = (link, undoLog) :: self.chain fuel undoLog.prevVersion := by
 rw [chain]
 by_cases invalid : (!link.isValid) = true
 · rw [if_pos invalid]
   exact .inl rfl
 · rw [if_neg invalid]
   cases found : self.getUndoLogOptional link with
   | none => exact .inl rfl
   | some undoLog => exact .inr ⟨undoLog, invalid, rfl, rfl⟩

theorem found_of_mem_chain {entry : UndoLink × UndoLog Value}
 (member : entry ∈ self.chain fuel link) : self.getUndoLogOptional entry.1 = some entry.2 := by
 induction fuel generalizing link with
 | zero => cases member
 | succ fuel ih =>
  rcases self.chain_cases fuel link with empty | ⟨undoLog, -, found, walked⟩
  · rw [empty] at member
    cases member
  · rw [walked] at member
    rcases mem_cons.mp member with first | later
    · rw [first]
      exact found
    · exact ih later

variable {tuple : RID × TupleMeta}

theorem found_of_mem_chainOf {entry : UndoLink × UndoLog Value}
 (member : entry ∈ self.chainOf tuple) : self.getUndoLogOptional entry.1 = some entry.2 := by
 unfold chainOf at member
 cases head : self.getUndoLink tuple.1 with
 | none =>
  rw [head] at member
  cases member
 | some undoLink =>
  rw [head] at member
  exact found_of_mem_chain member

theorem Chained.allCounted_nodup (chained : self.Chained) : self.allCounted.Nodup :=
 chained.separate.sublist (.flatMap_right _ fun _ _ => counted_sublist _ _ _)

theorem found_of_counted (member : link ∈ self.allCounted) :
 ∃ undoLog, self.getUndoLogOptional link = some undoLog := by
 obtain ⟨tuple, -, inTuple⟩ := mem_flatMap.mp member
 obtain ⟨entry, inChain, same⟩ := mem_map.mp ((counted_sublist _ _ _).subset inTuple)
 rw [← same]
 exact ⟨entry.2, found_of_mem_chainOf inChain⟩

section

variable (chained : self.Chained)
include chained

theorem Chained.counted_of_count {id : TxnId} {txn : Transaction Value}
 (present : self.txnMap id = some txn)
 (count : (self.allCounted.countP fun link => link.prevTxn = id) = txn.undoLogs.length) {index : ℕ}
 (bound : index < txn.undoLogs.length) : ⟨id, index⟩ ∈ self.allCounted := by
 have own : ∀ link ∈ self.allCounted.filter fun link => link.prevTxn = id,
  link.prevTxn = id ∧ link.prevLogIdx < txn.undoLogs.length := by
  intro link member
  obtain ⟨inCounted, same⟩ := mem_filter.mp member
  have prevTxn : link.prevTxn = id := of_decide_eq_true same
  obtain ⟨undoLog, found⟩ := found_of_counted inCounted
  unfold getUndoLogOptional at found
  rw [prevTxn, present, bind_some] at found
  exact ⟨prevTxn, (List.getElem?_eq_some_iff.mp found).1⟩
 have nodup : ((self.allCounted.filter fun link => link.prevTxn = id).map
  UndoLink.prevLogIdx).Nodup := by
  apply List.Nodup.map_on _ (chained.allCounted_nodup.filter _)
  intro first inFirst second inSecond same
  have firstTxn := (own first inFirst).1
  have secondTxn := (own second inSecond).1
  cases first
  cases second
  cases firstTxn
  cases secondTxn
  cases same
  rfl
 have within : (self.allCounted.filter fun link => link.prevTxn = id).map
  UndoLink.prevLogIdx ⊆ List.range txn.undoLogs.length := by
  intro position member
  obtain ⟨link, inFiltered, same⟩ := mem_map.mp member
  rw [mem_range, ← same]
  exact (own link inFiltered).2
 have all := (nodup.subperm within).perm_of_length_le (Nat.le_of_eq (by
  grind))
 obtain ⟨link, inFiltered, same⟩ :=
  mem_map.mp (all.mem_iff.mpr (mem_range.mpr bound))
 have prevTxn := (own link inFiltered).1
 have counted := (mem_filter.mp inFiltered).1
 cases link
 cases prevTxn
 cases same
 exact counted

theorem Chained.not_counted (stored : tuple ∈ self.tables.flatten)
 {rest : List (UndoLink × UndoLog Value)} {undoLog : UndoLog Value}
 (split : self.chainOf tuple = newer ++ (link, undoLog) :: rest)
 (newBase : self.watermark < tuple.2.ts) (new : ∀ entry ∈ newer, self.watermark < entry.2.ts) :
 link ∉ self.allCounted := by
 intro member
 obtain ⟨nodups, disjoint⟩ := nodup_flatMap.mp chained.separate
 obtain ⟨other, otherStored, inOther⟩ := mem_flatMap.mp member
 by_cases same : other = tuple
 · subst other
   unfold countedOf at inOther
   rw [decide_eq_false (Nat.not_le.mpr newBase), split, counted_append new, counted,
    if_neg Bool.false_ne_true, nil_append] at inOther
   have later := (counted_sublist _ _ _).subset inOther
   grind
 · have symmetric : Std.Symm (Function.onFun List.Disjoint fun tuple =>
    (self.chainOf tuple).map Prod.fst) :=
    ⟨fun _ _ apart _ inFirst inSecond => apart inSecond inFirst⟩
   have apart := disjoint.forall otherStored stored same
   apply apart ((counted_sublist _ _ _).subset inOther)
   simp_all

structure Collected (before after : TransactionManager Value) : Prop where
 versionInfo : after.versionInfo = before.versionInfo
 tables : after.tables = before.tables
 watermark : after.watermark = before.watermark
 removed : ∀ link, before.getUndoLogOptional link = none →
  after.getUndoLogOptional link = none
 kept : ∀ link, link ∉ before.allCounted →
  after.getUndoLogOptional link = before.getUndoLogOptional link
 unfinished : ∀ id txn, before.txnMap id = some txn →
  txn.state ≠ .committed → txn.state ≠ .aborted → after.txnMap id = some txn

theorem garbageCollection_collected :
 ∃ after, self.garbageCollection = some after ∧ Collected self after := by
 unfold garbageCollection
 rw [countTables_eq chained]
 refine ⟨_, rfl, rfl, rfl, rfl, ?_, ?_, ?_⟩
 · intro link missing
   unfold getUndoLogOptional at missing ⊢
   dsimp only
   cases present : self.txnMap link.prevTxn with
   | none => rfl
   | some txn =>
    rw [present, bind_some] at missing
    rw [filter_some]
    split
    · exact missing
    · rfl
 · intro link notCounted
   unfold getUndoLogOptional
   dsimp only
   cases present : self.txnMap link.prevTxn with
   | none => rfl
   | some txn =>
    rw [filter_some]
    split
    · rfl
    · rename_i gone
      rw [not_eq_true, not_eq_false', and_eq_true, decide_eq_true_iff,
       chained.keyed _ _ present] at gone
      rw [bind_none, bind_some, eq_comm, getElem?_eq_none_iff]
      by_contra inside
      exact notCounted (chained.counted_of_count present gone.1 (Nat.lt_of_not_le inside))
 · simp_all

/-! ### Readers do not notice -/

theorem Collected.readChain {after : TransactionManager Value} (collected : Collected self after)
 (stored : tuple ∈ self.tables.flatten) {readTs : ℕ} (allowed : self.watermark ≤ readTs)
 (newBase : readTs < tuple.2.ts) (enough : self.Enough fuel link)
 (split : self.chainOf tuple = newer ++ self.chain fuel link)
 (new : ∀ entry ∈ newer, readTs < entry.2.ts) (undoLogs : List (UndoLog Value)) :
 ∃ reading, self.readChain readTs fuel link undoLogs = some reading ∧
  after.readChain readTs fuel link undoLogs = some reading ∧
  ∀ lost, reading = .dangling lost → self.getUndoLogOptional lost = none := by
 induction fuel generalizing link newer undoLogs with
 | zero => exact absurd enough.1 (by omega)
 | succ fuel ih =>
  unfold chain at split
  unfold TransactionManager.readChain
  by_cases invalid : (!link.isValid) = true
  · rw [if_pos invalid, if_pos invalid]
    exact ⟨_, rfl, rfl, fun _ impossible => by cases impossible⟩
  · rw [if_neg invalid] at split
    rw [if_neg invalid, if_neg invalid]
    cases found : self.getUndoLogOptional link with
    | none =>
     rw [collected.removed link found]
     simp_all
    | some undoLog =>
     rw [found] at split
     have kept : after.getUndoLogOptional link = some undoLog := by
      rw [collected.kept link, found]
      exact chained.not_counted stored split (by omega)
       fun entry member => Nat.lt_of_le_of_lt allowed (new entry member)
     rw [kept]
     dsimp only
     by_cases visible : undoLog.ts ≤ readTs
     · rw [if_pos visible, if_pos visible]
       exact ⟨_, rfl, rfl, fun _ impossible => by cases impossible⟩
     · rw [if_neg visible, if_neg visible]
       apply ih (chained.enough_older enough found)
       · rw [split, append_cons]
       · intro entry member
         rcases mem_append.mp member with old | own
         · exact new entry old
         · simp_all

end

theorem readChain_invalid (readTs : ℕ) (positive : 1 ≤ fuel) (invalid : (!link.isValid) = true)
 (undoLogs : List (UndoLog Value)) :
 self.readChain readTs fuel link undoLogs = some .unseen := by
 cases fuel with
 | zero => omega
 | succ fuel =>
  unfold TransactionManager.readChain
  rw [if_pos invalid]

theorem Collected.head (chained : self.Chained) {after : TransactionManager Value}
 (collected : Collected self after) {tuple : RID × TupleMeta}
 (stored : tuple ∈ self.tables.flatten) (newBase : self.watermark < tuple.2.ts) {fuel : ℕ}
 {link : UndoLink} (split : self.chainOf tuple = self.chain (fuel + 1) link)
 (valid : ¬ (!link.isValid) = true) :
 after.getUndoLogOptional link = self.getUndoLogOptional link := by
 unfold chain at split
 rw [if_neg valid] at split
 cases found : self.getUndoLogOptional link with
 | none => exact collected.removed link found
 | some undoLog =>
  rw [found] at split
  rw [collected.kept link, found]
  exact chained.not_counted stored (split.trans (nil_append _).symm) newBase
   fun _ impossible => by cases impossible

/-- A collection ends, no reader at or above the watermark reads anything else after it
or meets a log that it removed, and it removes no transaction that has not ended. -/
theorem garbageCollection_invisible (chained : self.Chained) :
 ∃ after, self.garbageCollection = some after ∧
  (∀ tuple ∈ self.tables.flatten, ∀ readTs, self.watermark ≤ readTs →
   ∃ reading, self.read readTs tuple = some reading ∧
    after.read readTs tuple = some reading ∧
    ∀ lost, reading = .dangling lost → self.getUndoLogOptional lost = none) ∧
  ∀ id txn, self.txnMap id = some txn → txn.state ≠ .committed → txn.state ≠ .aborted →
   after.txnMap id = some txn := by
 obtain ⟨after, done, collected⟩ := garbageCollection_collected chained
 refine ⟨after, done, ?_, collected.unfinished⟩
 intro tuple stored readTs allowed
 unfold read getUndoLink
 rw [collected.versionInfo]
 by_cases visible : tuple.2.ts ≤ readTs
 · rw [if_pos visible, if_pos visible]
   exact ⟨_, rfl, rfl, fun _ impossible => by cases impossible⟩
 · rw [if_neg visible, if_neg visible]
   cases head : self.versionInfo tuple.1 with
   | none => exact ⟨_, rfl, rfl, fun _ impossible => by cases impossible⟩
   | some undoLink =>
    have split : self.chainOf tuple = [] ++ self.chain (self.chainFuel undoLink) undoLink := by
     unfold chainOf getUndoLink
     rw [head]
     rfl
    have walked := collected.readChain chained stored allowed (Nat.lt_of_not_le visible)
     (chainFuel_enough self undoLink) split (fun _ impossible => by cases impossible) []
    dsimp only
    by_cases invalid : (!undoLink.isValid) = true
    · rw [readChain_invalid readTs (chainFuel_enough self undoLink).1 invalid,
       readChain_invalid readTs (chainFuel_enough after undoLink).1 invalid]
      exact ⟨_, rfl, rfl, fun _ impossible => by cases impossible⟩
    · have fuel : self.chainFuel undoLink = self.chainFuel undoLink - 1 + 1 := by
       have positive := (chainFuel_enough self undoLink).1
       omega
      have head := collected.head chained stored (by omega)
       (by rw [split, nil_append, ← fuel]) invalid
      have same : after.chainFuel undoLink = self.chainFuel undoLink := by
       unfold chainFuel
       rw [head]
      rw [same]
      exact walked

/-- A chain whose end is gone already: transaction 10 has ended below the watermark,
transaction 11 still runs. -/
def shortened : TransactionManager ℕ where
 txnMap := fun id =>
  if id = 10 then some ⟨10, .committed, [⟨false, [true], [1], 1, ⟨9, 0⟩⟩]⟩
  else if id = 11 then some ⟨11, .running, [⟨false, [true], [2], 3, ⟨10, 0⟩⟩]⟩
  else none
 versionInfo := fun rid => if rid = ⟨0, 0⟩ then some ⟨11, 0⟩ else none
 tables := [[(⟨0, 0⟩, ⟨5, false⟩), (⟨0, 1⟩, ⟨2, false⟩)]]
 watermark := 3

theorem shortened_found {undoLog : UndoLog ℕ}
 (found : shortened.getUndoLogOptional link = some undoLog) :
 (undoLog.ts = 1 ∧ undoLog.prevVersion = ⟨9, 0⟩) ∨
  (undoLog.ts = 3 ∧ undoLog.prevVersion = ⟨10, 0⟩) := by
 obtain ⟨txn, present, stored⟩ := bind_eq_some_iff.mp found
 unfold shortened at present
 dsimp only at present
 split at present
 · grind
 · split at present
   · grind
   · cases present

theorem shortened_chained : shortened.Chained where
 keyed := by
  intro id txn present
  unfold shortened at present
  dsimp only at present
  split at present
  · grind
  · split at present
    · grind
    · cases present
 decreasing := by
  intro link undoLog older found next
  rcases shortened_found found with ⟨-, previous⟩ | ⟨ts, previous⟩
  · rw [previous] at next
    cases next
  · rw [previous] at next
    cases next
    rw [ts]
    decide
 separate := by decide

theorem garbageCollection_invisible_shortened :
 ∃ after, shortened.garbageCollection = some after ∧
  (after.txnMap 10).isSome = false ∧ (after.txnMap 11).isSome = true ∧
  ∃ reading, shortened.read 4 (⟨0, 0⟩, ⟨5, false⟩) = some reading ∧
   after.read 4 (⟨0, 0⟩, ⟨5, false⟩) = some reading := by
 obtain ⟨after, done, invisible, -⟩ := garbageCollection_invisible shortened_chained
 have final : shortened.garbageCollection.map (fun manager =>
  ((manager.txnMap 10).isSome, (manager.txnMap 11).isSome)) = some (false, true) := by decide
 rw [done, map_some, some_inj, Prod.mk.injEq] at final
 obtain ⟨reading, before, same, -⟩ := invisible (⟨0, 0⟩, ⟨5, false⟩) (by decide) 4 (by decide)
 simp_all

end TransactionManager

end MyNotes.Cmu15445
