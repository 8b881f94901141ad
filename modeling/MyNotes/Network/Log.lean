/-
The web server's log: threads that call `write_log`, and the thread that writes the queue out.

Every section under `m_mutex` or under the mutex of the queue is one step.  A line carries the
thread that formatted it; its text is given.  `written` lists what `fputs` has put into the
files, in the order of time, with the file that was open.  A state also keeps, for each thread,
the texts that it has formatted.
-/

import MyNotes.Library.Transition
import MyNotes.Network.BlockQueue

namespace MyNotes.Network.Log

open Library.Transition Function List

variable {Tid : Type}

structure Line (Tid : Type) where
 writer : Tid
 text : String
 deriving DecidableEq

structure Date where
 year : ℕ
 month : ℕ
 day : ℕ
 deriving DecidableEq

/-- The part of a file's name behind the directory: the date, and the number of a further file
of that day. -/
structure FileName where
 date : Date
 part : Option ℕ
 deriving DecidableEq

inductive Stage where
 | idle
 | called (date : Date) (text : String)
 | counted (text : String)
 | formatted (text : String)
 | queueing (text : String)
 | writing (text : String)
 deriving DecidableEq

/-- The line that a thread has formatted and not passed on. -/
def Stage.hand : Stage → List String
 | .formatted text => [text]
 | .queueing text => [text]
 | .writing text => [text]
 | _ => []

structure State (Tid : Type) where
 mIsAsync : Bool
 mSplitLines : ℕ
 mCount : ℕ
 mToday : ℕ
 mFp : FileName
 mLogQueue : BlockQueue (Line Tid)
 stage : Tid → Stage
 flushing : Option (Line Tid)
 written : List (FileName × Line Tid)
 formatted : Tid → List String

inductive Event (Tid : Type) where
 | call (tid : Tid) (date : Date) (text : String)
 | count (tid : Tid)
 | format (tid : Tid)
 /-- `m_is_async && !m_log_queue->full()` -/
 | test (tid : Tid)
 | push (tid : Tid)
 | write (tid : Tid)
 | pop
 | flush

/-- After `init`; the queue has the places of the given array, and none means no thread. -/
def start (date : Date) (splitLines : ℕ) (array : List (Line Tid)) : State Tid where
 mIsAsync := 1 ≤ array.length
 mSplitLines := splitLines
 mCount := 0
 mToday := date.day
 mFp := ⟨date, none⟩
 mLogQueue := .new array
 stage _ := .idle
 flushing := none
 written := []
 formatted _ := []

namespace State

variable [DecidableEq Tid]

section

variable (self : State Tid)

def move (tid : Tid) (stage : Stage) : State Tid :=
 { self with stage := update self.stage tid stage }

/-- A line is counted, and begins a new file on a new day or behind a full one. -/
def count (date : Date) : State Tid :=
 let mCount := self.mCount + 1
 if self.mToday ≠ date.day then
  { self with mCount := 0, mToday := date.day, mFp := ⟨date, none⟩ }
 else if mCount % self.mSplitLines = 0 then
  { self with mCount := mCount, mFp := ⟨date, some (mCount / self.mSplitLines)⟩ }
 else { self with mCount := mCount }

def step : Event Tid → Option (State Tid)
 | .call tid date text =>
  match self.stage tid with
  | .idle => some (self.move tid (.called date text))
  | _ => none
 | .count tid =>
  match self.stage tid with
  | .called date text => some ((self.count date).move tid (.counted text))
  | _ => none
 | .format tid =>
  match self.stage tid with
  | .counted text =>
   some { self.move tid (.formatted text) with
    formatted := update self.formatted tid (self.formatted tid ++ [text]) }
  | _ => none
 | .test tid =>
  match self.stage tid with
  | .formatted text =>
   if self.mIsAsync && !self.mLogQueue.full then some (self.move tid (.queueing text))
   else some (self.move tid (.writing text))
  | _ => none
 | .push tid =>
  match self.stage tid with
  | .queueing text =>
   -- the result of `push` is ignored
   (self.mLogQueue.push ⟨tid, text⟩).map fun result =>
    { self.move tid .idle with mLogQueue := result.2 }
  | _ => none
 | .write tid =>
  match self.stage tid with
  | .writing text =>
   some { self.move tid .idle with
    written := self.written ++ [(self.mFp, ⟨tid, text⟩)] }
  | _ => none
 | .pop =>
  if self.mIsAsync ∧ self.flushing = none then
   match self.mLogQueue.pop with
   | some (some line, queue) =>
    some { self with mLogQueue := queue, flushing := some line }
   | _ => none
  else none
 | .flush =>
  self.flushing.map fun line =>
   { self with flushing := none, written := self.written ++ [(self.mFp, line)] }

/-- The lines from the first that was written to the last in the queue. -/
def lines : List (Line Tid) :=
 self.written.map Prod.snd ++ (self.flushing.toList ++ self.mLogQueue.contents)

def texts (tid : Tid) : List String :=
 (self.lines.filter fun line => line.writer = tid).map Line.text

end

/-- What a thread has formatted is in the files, next to be written, in the queue or in its
hand: every line once, and in this order. -/
def Intact (state : State Tid) : Prop :=
 ∀ tid, state.texts tid ++ (state.stage tid).hand = state.formatted tid

/-- The queue still has a place when a thread that found one pushes, and a thread writes a line
itself only when its earlier ones are written. -/
def avoids (self : State Tid) : Event Tid → Prop
 | .push _ => self.mLogQueue.full = false
 | .write tid => ∀ line ∈ self.flushing.toList ++ self.mLogQueue.contents, line.writer ≠ tid
 | _ => True

instance (state : State Tid) : ∀ event, Decidable (state.avoids event)
 | .push _ => inferInstanceAs (Decidable (_ = _))
 | .write _ => inferInstanceAs (Decidable (∀ line ∈ _, _))
 | .call .. => .isTrue trivial
 | .count _ => .isTrue trivial
 | .format _ => .isTrue trivial
 | .test _ => .isTrue trivial
 | .pop => .isTrue trivial
 | .flush => .isTrue trivial

/-! ### Runs in which no line is dropped or overtaken -/

structure Consistent (state : State Tid) : Prop where
 intact : state.Intact
 queue : state.mIsAsync = true → state.mLogQueue.Sound
 queueing : ∀ {tid text}, state.stage tid = .queueing text → state.mIsAsync = true

variable {state next : State Tid} {tid : Tid} {event : Event Tid} {text : String}
 {stage : Stage}

theorem start_consistent (date : Date) (splitLines : ℕ) (array : List (Line Tid)) :
 (start date splitLines array).Consistent where
 intact _ := rfl
 queue async := BlockQueue.new_sound (of_decide_eq_true async)
 queueing same := by cases same

theorem Consistent.move (consistent : state.Consistent)
 (same : stage.hand = (state.stage tid).hand)
 (queueing : ∀ {text}, stage = .queueing text → state.mIsAsync = true) :
 (state.move tid stage).Consistent where
 intact other := by
  have before := consistent.intact other
  by_cases me : other = tid
  · subst me
    simp only [State.move, update_self, same]
    exact before
  · simp only [State.move, update_of_ne me]
    exact before
 queue := consistent.queue
 queueing {other text} same := by
  by_cases me : other = tid
  · subst me
    simp only [State.move, update_self] at same
    exact queueing same
  · simp only [State.move, update_of_ne me] at same
    exact consistent.queueing same

omit [DecidableEq Tid] in
theorem texts_line [DecidableEq Tid] (before after : List (Line Tid)) (line : Line Tid)
 (alone : ∀ other ∈ after, other.writer ≠ line.writer) (tid : Tid) :
 ((before ++ line :: after).filter fun other => other.writer = tid).map Line.text =
  ((before ++ after).filter fun other => other.writer = tid).map Line.text ++
   if tid = line.writer then [line.text] else [] := by
 simp only [filter_append, map_append, filter_cons, decide_eq_true_eq]
 by_cases mine : line.writer = tid
 · subst mine
   have none : after.filter (fun other => decide (other.writer = line.writer)) = [] := by
    rw [filter_eq_nil_iff]
    exact fun other member same => alone other member (of_decide_eq_true same)
   rw [if_pos rfl, if_pos rfl, none]
   simp
 · grind

theorem Consistent.pass (consistent : state.Consistent)
 (hand : (state.stage tid).hand = [text])
 (stages : next.stage = update state.stage tid .idle)
 (formatted : next.formatted = state.formatted) (async : next.mIsAsync = state.mIsAsync)
 (queue : next.mIsAsync = true → next.mLogQueue.Sound)
 {before after : List (Line Tid)} (lines : state.lines = before ++ after)
 (lines' : next.lines = before ++ ⟨tid, text⟩ :: after)
 (alone : ∀ line ∈ after, line.writer ≠ tid) : next.Consistent where
 intact other := by
  have intact := consistent.intact other
  have texts : next.texts other = state.texts other ++ if other = tid then [text] else [] := by
   unfold State.texts
   rw [lines, lines']
   exact texts_line before after ⟨tid, text⟩ alone other
  rw [texts, stages, formatted, ← intact]
  by_cases me : other = tid
  · subst me
    rw [if_pos rfl, update_self, hand]
    exact append_nil _
  · simp_all
 queue := queue
 queueing {other text} same := by
  rw [stages] at same
  by_cases me : other = tid
  · rw [me, update_self] at same
    cases same
  · rw [update_of_ne me] at same
    exact async.trans (consistent.queueing same)

theorem Consistent.hand_on (consistent : state.Consistent) (stages : next.stage = state.stage)
 (formatted : next.formatted = state.formatted) (async : next.mIsAsync = state.mIsAsync)
 (queue : next.mIsAsync = true → next.mLogQueue.Sound) (lines : next.lines = state.lines) :
 next.Consistent where
 intact tid := by
  unfold State.texts
  rw [stages, formatted, lines]
  exact consistent.intact tid
 queue := queue
 queueing {tid text} same := async.trans (consistent.queueing (stages ▸ same))

theorem Consistent.step (consistent : state.Consistent) (avoids : state.avoids event)
 (taken : state.step event = some next) : next.Consistent := by
 cases event with
 | call tid date text =>
  simp only [State.step] at taken
  split at taken
  · rename_i idle
    cases taken
    exact consistent.move (by rw [idle]; rfl) nofun
  · cases taken
 | count tid =>
  simp only [State.step] at taken
  split at taken
  · rename_i date text called
    cases taken
    have counted : (state.count date).Consistent := by
     unfold State.count
     dsimp only
     split
     · exact ⟨consistent.intact, consistent.queue, consistent.queueing⟩
     · split
       · exact ⟨consistent.intact, consistent.queue, consistent.queueing⟩
       · exact ⟨consistent.intact, consistent.queue, consistent.queueing⟩
    have sameStage : (state.count date).stage = state.stage := by
     unfold State.count
     dsimp only
     split
     · rfl
     · split <;> rfl
    exact counted.move (by rw [sameStage, called]; rfl) nofun
  · cases taken
 | format tid =>
  simp only [State.step] at taken
  split at taken
  · rename_i text counted
    cases taken
    refine ⟨fun other => ?_, consistent.queue, fun {other text} same => ?_⟩
    · have before := consistent.intact other
      by_cases me : other = tid
      · subst me
        rw [counted] at before
        simp only [State.move, update_self]
        rw [← before]
        exact congrArg (· ++ [text]) (append_nil _).symm
      · simp only [State.move, update_of_ne me]
        exact before
    · by_cases me : other = tid
      · subst me
        simp only [State.move, update_self] at same
        cases same
      · simp only [State.move, update_of_ne me] at same
        exact consistent.queueing same
  · cases taken
 | test tid =>
  simp only [State.step] at taken
  split at taken
  · rename_i text formatted
    split at taken
    · rename_i room
      cases taken
      refine consistent.move (by rw [formatted]; rfl) fun _ => ?_
      exact (Bool.and_eq_true_iff.mp room).1
    · cases taken
      exact consistent.move (by rw [formatted]; rfl) nofun
  · cases taken
 | push tid =>
  simp only [State.step] at taken
  split at taken
  · rename_i text queueing
    have sound := consistent.queue (consistent.queueing queueing)
    have room : state.mLogQueue.mSize < state.mLogQueue.mMaxSize :=
     Nat.not_le.mp (of_decide_eq_false avoids)
    obtain ⟨queue, pushed, nextSound, -, contents⟩ := sound.push ⟨tid, text⟩ room
    rw [pushed] at taken
    cases taken
    refine consistent.pass (by rw [queueing]; rfl) rfl rfl rfl (fun _ => nextSound)
     (append_nil _).symm ?_ nofun
    change state.written.map Prod.snd ++ (state.flushing.toList ++ queue.contents) = _
    rw [contents, ← append_assoc state.flushing.toList, ← append_assoc]
    rfl
  · cases taken
 | write tid =>
  simp only [State.step] at taken
  split at taken
  · rename_i text writing
    cases taken
    refine consistent.pass (by rw [writing]; rfl) rfl rfl rfl consistent.queue rfl ?_ avoids
    change (state.written ++ [(state.mFp, Line.mk tid text)]).map Prod.snd ++
     (state.flushing.toList ++ state.mLogQueue.contents) = _
    simp
  · cases taken
 | pop =>
  obtain ⟨⟨async, idle⟩, popped⟩ := Option.ite_none_right_eq_some.mp taken
  have sound := consistent.queue async
  rcases Nat.eq_zero_or_pos state.mLogQueue.mSize with empty | some_left
  · rw [BlockQueue.pop_empty empty] at popped
    cases popped
  · obtain ⟨line, rest, queue, whole, isPop, nextSound, -, contents⟩ := sound.pop some_left
    rw [isPop] at popped
    cases popped
    refine consistent.hand_on rfl rfl rfl (fun _ => nextSound) ?_
    unfold State.lines
    rw [idle, whole, contents]
    rfl
 | flush =>
  obtain ⟨line, held, same⟩ := Option.map_eq_some_iff.mp taken
  cases same
  refine consistent.hand_on rfl rfl rfl consistent.queue ?_
  unfold State.lines
  simp_all

/-- In a run in which no `push` meets a full queue and no thread writes past its own queued
lines, every line is kept once and in the order of its thread. -/
theorem write_log_intact (date : Date) (splitLines : ℕ) (array : List (Line Tid))
 (events : List (Event Tid)) (final : State Tid)
 (run : Run (Guarded avoids (ofFunction step)) (start date splitLines array) events final) :
 final.Intact :=
 (run.invariant (start_consistent date splitLines array) fun _ _ _ before taken =>
  before.step taken.1 taken.2).intact

def someDay : Date := ⟨2024, 5, 1⟩

/-- A thread formats a line and finds out where it goes. -/
def formats (tid : Bool) (text : String) : List (Event Bool) :=
 [.call tid someDay text, .count tid, .format tid, .test tid]

theorem write_log_intact_two : ∃ final : State Bool,
 final.written.map (fun entry => entry.2.text) = ["one", "two", "three"] ∧ final.Intact := by
 obtain ⟨final, same, written⟩ : ∃ final,
  replay (restrict avoids step) (start someDay 100 [⟨true, ""⟩])
   (formats true "one" ++ [.push true] ++ formats false "two" ++
    [.pop, .flush, .write false] ++ formats true "three" ++
    [.push true, .pop, .flush]) = some final ∧
   final.written.map (fun entry => entry.2.text) = ["one", "two", "three"] := ⟨_, rfl, rfl⟩
 exact ⟨final, written, write_log_intact someDay 100 _ _ final (Run.of_replay same)⟩

/-- Two threads find a place in the queue before either of them pushes: a line is lost.  A
thread that finds the queue full writes past its line in the queue. -/
theorem lines_lost_and_overtaken :
 (∃ events, ∃ final : State Bool,
  Run (ofFunction step) (start someDay 100 [⟨true, ""⟩]) events final ∧
   final.stage false = .idle ∧ final.formatted false = ["two"] ∧
   final.texts false = [] ∧ ¬ final.Intact) ∧
 ∃ events, ∃ final : State Bool,
  Run (ofFunction step) (start someDay 100 [⟨true, ""⟩]) events final ∧
   final.formatted true = ["one", "two"] ∧
   final.written.map (fun entry => entry.2.text) = ["two", "one"] ∧ ¬ final.Intact := by
 constructor
 · obtain ⟨final, same, idle, formatted, texts⟩ : ∃ final,
    replay step (start someDay 100 [⟨true, ""⟩])
     (formats true "one" ++ formats false "two" ++ [.push true, .push false]) = some final ∧
     final.stage false = .idle ∧ final.formatted false = ["two"] ∧
     final.texts false = [] := ⟨_, rfl, rfl, rfl, rfl⟩
   refine ⟨_, final, Run.of_replay_all same, idle, formatted, texts, fun intact => ?_⟩
   have lost := intact false
   rw [texts, idle, formatted] at lost
   cases lost
 · obtain ⟨final, same, idle, formatted, written, texts⟩ : ∃ final,
    replay step (start someDay 100 [⟨true, ""⟩])
     (formats true "one" ++ [.push true] ++ formats true "two" ++
      [.write true, .pop, .flush]) = some final ∧
     final.stage true = .idle ∧ final.formatted true = ["one", "two"] ∧
     final.written.map (fun entry => entry.2.text) = ["two", "one"] ∧
     final.texts true = ["two", "one"] := ⟨_, rfl, rfl, rfl, rfl, rfl⟩
   refine ⟨_, final, Run.of_replay_all same, formatted, written, fun intact => ?_⟩
   have swapped := intact true
   rw [texts, idle, formatted] at swapped
   exact absurd swapped (by decide)

end State

end MyNotes.Network.Log
