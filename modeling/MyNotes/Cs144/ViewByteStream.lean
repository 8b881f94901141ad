/-
The byte stream of lab 0 with one view of the string in front.

The view is refreshed when the first string comes, when the string in front is used up and when a
part of it is popped.  A pop that uses up the last string goes on to the string behind it, and
there is none.
-/

import MyNotes.Cs144.QueueByteStream

namespace MyNotes.Cs144

open Library.Transition Library.TextView StringStream List

abbrev ViewByteStream := StringStream View

namespace ViewByteStream

/-- `ByteStream::ByteStream`; a `string_view` is empty at first. -/
def empty (capacity : UInt64) : ViewByteStream :=
 ⟨capacity, false, false, [], ⟨0, 0, 0⟩, 0, 0, 1⟩

/-- `if( buffer_data.size() == 1) buffer_view = buffer_data.front()`. -/
def refresh (self : ViewByteStream) (bufferData : List (Stored Byte)) (_towrite : ℕ) : View :=
 match bufferData with
 | [front] => front.whole
 | _ => self.bufferView

/-- `Writer::push`. -/
def push (self : ViewByteStream) (data : List Byte) : ViewByteStream :=
 self.pushWith refresh data

/-- `Reader::peek`. -/
def peek (self : ViewByteStream) : Option (List Byte) := self.bufferView.read self.bufferData

/-- The loop of `Reader::pop`. -/
def popLoop : ℕ → ViewByteStream → ℕ → Except Fault ViewByteStream
 | 0, self, len => if len = 0 then .ok self else .error .outOfRounds
 | rounds + 1, self, len =>
  if len = 0 then .ok self
  else if self.bufferView.size ≤ len then
   (popFront self.bufferData).bind fun data =>
   (front data).bind fun first =>
   popLoop rounds { self with bufferData := data, bufferView := first.whole }
    (len - self.bufferView.size)
  else popLoop rounds { self with bufferView := self.bufferView.removePrefix len } 0

/-- `Reader::pop`. -/
def pop (rounds : ℕ) (self : ViewByteStream) (len : UInt64) : Except Fault ViewByteStream :=
 if self.bytesBuffered < len then .ok self
 else popLoop rounds { self with bytesPopped := self.bytesPopped + len } len.toNat

/-- The view of the string in front, and the whole strings behind it. -/
def views (self : ViewByteStream) : List View :=
 match self.bufferData with
 | [] => []
 | _ :: rest => self.bufferView :: rest.map Stored.whole

def version : Version View := ⟨push, pop, views⟩

def start (capacity : UInt64) : Session View := ⟨empty capacity, [], []⟩

/-! ### One push and one pop -/

theorem version_pushes : version.Pushes := by
 refine pushes_of_views (show version.push = fun stream => stream.pushWith refresh from rfl)
  fun stream next data strings view => ?_
 change views next = views stream ++ _
 unfold views
 rw [view, strings]
 cases stream.bufferData with
 | nil => rfl
 | cons first rest =>
  dsimp only [cons_append]
  rw [map_append]
  cases rest with
  | nil => rfl
  | cons second rest => rfl

variable {self : ViewByteStream} {len : ℕ} {stored : Stored Byte} {store : List (Stored Byte)}

theorem views_of_cons (data : self.bufferData = stored :: store) :
 views self = self.bufferView :: store.map Stored.whole := by
 unfold views
 rw [data]

theorem popLoop_zero : ∀ rounds stream, popLoop rounds stream 0 = .ok stream
 | 0, _ => rfl
 | _ + 1, _ => rfl

/-- How the loop ends: for want of rounds, at a string that is not there, or well. -/
def LoopEnds (rounds : ℕ) (stream : ViewByteStream) (len : ℕ) : Prop :=
 (rounds < stream.bufferData.length ∧ popLoop rounds stream len = .error .outOfRounds) ∨
  (0 < len ∧ len = (stream.unread version).length ∧
   popLoop rounds stream len = .error .frontOfEmpty) ∨
  (len = 0 ∨ len < (stream.unread version).length) ∧
   ∃ next, popLoop rounds stream len = .ok next ∧ Drained version stream next len ∧
    next.bytesPopped = stream.bytesPopped

theorem length_unread (data : self.bufferData = stored :: store)
 (suffix : self.bufferView.SuffixOf stored) :
 (self.unread version).length = self.bufferView.size +
  (remaining store (store.map Stored.whole)).length := by
 change (remaining self.bufferData (views self)).length = _
 rw [data, views_of_cons data, remaining_cons, length_append, suffix.length_drop]

theorem LoopEnds.behind {rounds : ℕ} {second : Stored Byte}
 (data : self.bufferData = stored :: second :: store)
 (aligned : Aligned self.bufferData (views self)) (more : len ≠ 0)
 (whole : self.bufferView.size ≤ len)
 (later : LoopEnds rounds { self with
  bufferData := second :: store
  bufferView := second.whole } (len - self.bufferView.size)) :
 LoopEnds (rounds + 1) self len := by
 have drained : Drained version self { self with
  bufferData := second :: store
  bufferView := second.whole } self.bufferView.size :=
  .front data (views_of_cons data) aligned rfl rfl rfl rfl rfl
 have round : popLoop (rounds + 1) self len = popLoop rounds { self with
  bufferData := second :: store
  bufferView := second.whole } (len - self.bufferView.size) := by
  rw [popLoop, if_neg more, if_pos whole, popFront_of_cons data]
  rfl
 rw [data, views_of_cons data] at aligned
 have total := length_unread data (forall₂_cons.mp aligned.suffixes).1
 have behind := aligned.pop.length_pos
 have parts : len = self.bufferView.size + (len - self.bufferView.size) := by omega
 unfold LoopEnds
 rw [round]
 rcases later with ⟨less, short⟩ | ⟨some, all, fault⟩ | ⟨some, last, done, rest, same⟩
 · exact .inl ⟨by rw [data]; exact Nat.succ_lt_succ less, short⟩
 · change len - self.bufferView.size = (remaining (second :: store)
    ((second :: store).map Stored.whole)).length at all
   exact .inr (.inl ⟨Nat.pos_of_ne_zero more, by omega, fault⟩)
 · change _ ∨ len - self.bufferView.size < (remaining (second :: store)
    ((second :: store).map Stored.whole)).length at some
   exact .inr (.inr ⟨.inr (by omega), last, done, parts ▸ drained.trans rest, same⟩)

theorem popLoop_spec (rounds : ℕ) (aligned : Aligned self.bufferData (views self))
 (enough : len ≤ (self.unread version).length) : LoopEnds rounds self len := by
 induction rounds generalizing self len with
 | zero =>
  rw [LoopEnds, popLoop]
  split
  · rename_i zero
    subst zero
    exact .inr (.inr ⟨.inl rfl, self, rfl, .refl aligned, rfl⟩)
  · rename_i more
    obtain ⟨stored, store, -, -, data, -⟩ := aligned.exists_cons
     (Nat.lt_of_lt_of_le (Nat.pos_of_ne_zero more) enough)
    exact .inl ⟨data ▸ Nat.succ_pos _, rfl⟩
 | succ rounds ih =>
  by_cases zero : len = 0
  · subst zero
    exact .inr (.inr ⟨.inl rfl, self, popLoop_zero _ _, .refl aligned, rfl⟩)
  · obtain ⟨stored, store, view, rest, data, list, suffix, later⟩ := aligned.exists_cons
     (Nat.lt_of_lt_of_le (Nat.pos_of_ne_zero zero) enough)
    obtain ⟨rfl, rfl⟩ := cons.inj ((views_of_cons data).symm.trans list)
    have total := length_unread data suffix
    by_cases whole : self.bufferView.size ≤ len
    · cases store with
      | nil =>
       have none : (remaining ([] : List (Stored Byte)) []).length = 0 := rfl
       rw [map_nil, none] at total
       refine .inr (.inl ⟨Nat.pos_of_ne_zero zero, by omega, ?_⟩)
       rw [popLoop, if_neg zero, if_pos whole, popFront_of_cons data]
       rfl
      | cons second others =>
       have left : len - self.bufferView.size ≤ (remaining (second :: others)
        ((second :: others).map Stored.whole)).length := by omega
       exact .behind data aligned zero whole (ih later left)
    · have drained : Drained version self { self with
       bufferView := self.bufferView.removePrefix len } len :=
       .part data list aligned (Nat.lt_of_not_le whole) rfl (views_of_cons data) rfl rfl rfl
      refine .inr (.inr ⟨.inr (by omega), _, ?_, drained, rfl⟩)
      rw [popLoop, if_neg zero, if_neg whole]
      exact popLoop_zero _ _

/-! ### Every run -/

/-- What the reader is shown: of the string in front what has not been popped. -/
structure InStep (session : Session View) : Prop where
 nothing : session.stream.bufferData = [] → session.stream.bufferView.size = 0
 suffix : ∀ stored ∈ session.stream.bufferData.head?, session.stream.bufferView.SuffixOf stored
 exposed : ∃ text, peek session.stream = some text ∧ session.popped ++ text <+: session.accepted

/-- The pop ends without a fault, and the view is in step behind it. -/
structure PopsRight (session : Session View) (len : UInt64) : Prop where
 safe : ∀ rounds, pop rounds session.stream len ≠ .error .frontOfEmpty
 ends : ∃ rounds stream, pop rounds session.stream len = .ok stream ∧
  InStep (session.pop version stream)

structure Kept (session : Session View) : Prop where
 sound : session.Sound version
 nothing : session.stream.bufferData = [] → session.stream.bufferView.size = 0

variable {session next : Session View} {capacity : UInt64} {calls : List Call}

theorem Kept.inStep (kept : Kept session) : InStep session := by
 have aligned : Aligned session.stream.bufferData (views session.stream) :=
  kept.sound.stream.aligned
 have conserved : session.popped ++ remaining session.stream.bufferData (views session.stream) =
  session.accepted := kept.sound.conserved
 cases data : session.stream.bufferData with
 | nil =>
  have empty := kept.nothing data
  refine ⟨fun _ => empty, fun stored first => ?_, [], if_pos empty, ?_⟩
  · rw [data] at first
    cases first
  · grind
 | cons first rest =>
  rw [data, views_of_cons data] at aligned conserved
  obtain ⟨suffix, -⟩ := forall₂_cons.mp aligned.suffixes
  refine ⟨fun none => ?_, fun stored front => ?_,
   first.text.drop session.stream.bufferView.start, ?_, ?_⟩
  · cases data.symm.trans none
  · simp_all
  · rw [peek, data]
    exact suffix.read rest
  · rw [← conserved, remaining_cons, ← append_assoc]
    exact prefix_append _ _

theorem pop_spec (kept : Kept session) (rounds : ℕ) (len : UInt64) :
 (rounds < session.stream.bufferData.length ∧
  pop rounds session.stream len = .error .outOfRounds) ∨
 (¬ (len = 0 ∨ len ≠ session.stream.bytesBuffered) ∧
  pop rounds session.stream len = .error .frontOfEmpty) ∨
 (len = 0 ∨ len ≠ session.stream.bytesBuffered) ∧
  ∃ stream, pop rounds session.stream len = .ok stream ∧ Kept (session.pop version stream) := by
 have aligned : Aligned session.stream.bufferData (views session.stream) :=
  kept.sound.stream.aligned
 have buffered := kept.sound.stream.buffered
 have all : len = session.stream.bytesBuffered ↔
  len.toNat = (session.stream.unread version).length := by
  rw [← buffered]
  exact UInt64.toNat_inj.symm
 rw [pop]
 split
 · rename_i more
   refine .inr (.inr ⟨.inr fun same => ?_, _, rfl, ?_, kept.nothing⟩)
   · simp_all
   · exact kept.sound.pop (.refl aligned) (Nat.zero_le _) (UInt64.add_zero _).symm
 · rename_i less
   have enough : len.toNat ≤ (session.stream.unread version).length := by
    rw [← buffered]
    exact UInt64.le_iff_toNat_le.mp (UInt64.not_lt.mp less)
   by_cases zero : len = 0
   · subst zero
     exact .inr (.inr ⟨.inl rfl, _, popLoop_zero _ _,
      kept.sound.pop ⟨aligned, suffix_rfl, rfl, rfl, rfl, rfl⟩ (Nat.zero_le _) rfl,
      kept.nothing⟩)
   · have some : len.toNat ≠ 0 := fun none => zero (UInt64.toNat_inj.mp none)
     rcases @popLoop_spec { session.stream with
      bytesPopped := session.stream.bytesPopped + len } _ rounds aligned enough
      with short | ⟨-, whole, fault⟩ | ⟨part, stream, done, drained, popped⟩
     · exact .inl short
     · exact .inr (.inl ⟨not_or.mpr ⟨zero, not_not.mpr (all.mpr whole)⟩, fault⟩)
     · have less : len.toNat < (session.stream.unread version).length :=
        part.resolve_left some
       refine .inr (.inr ⟨.inr fun same => ?_, stream, done, ?_, fun none => ?_⟩)
       · exact Nat.ne_of_lt less (all.mp same)
       · refine kept.sound.pop ⟨drained.aligned, drained.bufferData, drained.unread,
          drained.bytesPushed, drained.capacity, drained.nextAddress⟩ enough ?_
         rw [popped, UInt64.ofNat_toNat]
       · have left := congrArg length drained.unread
         have empty : (stream.unread version).length = 0 := by
          change (remaining stream.bufferData _).length = 0
          rw [show stream.bufferData = [] from none]
          rfl
         grind

theorem Kept.step {call : Call} (kept : Kept session) (taken : Step version session call next) :
 Kept next := by
 cases call with
 | push data =>
  cases taken
  refine ⟨kept.sound.push version_pushes data, fun none => ?_⟩
  obtain ⟨-, same⟩ | ⟨-, appends⟩ := version_pushes session.stream data
  · rw [same] at none ⊢
    exact kept.nothing none
  · exact absurd (appends.bufferData.symm.trans none) (append_ne_nil_of_right_ne_nil _
     (cons_ne_nil _ _))
 | pop len =>
  obtain ⟨rounds, stream, popped, result⟩ := taken
  subst result
  rcases pop_spec kept rounds len with ⟨-, short⟩ | ⟨-, fault⟩ | ⟨-, other, done, after⟩
  · cases short.symm.trans popped
  · cases fault.symm.trans popped
  · cases done.symm.trans popped
    exact after
 | close =>
  cases taken
  obtain ⟨aligned, older, buffered, fits⟩ := kept.sound.stream
  exact ⟨⟨⟨aligned, older, buffered, fits⟩, kept.sound.conserved⟩, kept.nothing⟩
 | setError =>
  cases taken
  obtain ⟨aligned, older, buffered, fits⟩ := kept.sound.stream
  exact ⟨⟨⟨aligned, older, buffered, fits⟩, kept.sound.conserved⟩, kept.nothing⟩

theorem start_kept (capacity : UInt64) : Kept (start capacity) := by
 refine ⟨⟨⟨.nil, fun _ member => absurd member not_mem_nil, ?_, Nat.zero_le _⟩, rfl⟩,
  fun _ => rfl⟩
 change ((0 : UInt64) - 0).toNat = 0
 decide

/-- In every state of every run the view is in step, and a pop is right if and only if it does not
take exactly the bytes that are buffered. -/
theorem pop_right_iff (run : Run (Step version) (start capacity) calls session) :
 InStep session ∧ ∀ len,
  PopsRight session len ↔ len = 0 ∨ len ≠ session.stream.bytesBuffered := by
 have kept : Kept session := run.invariant (start_kept capacity) fun _ _ _ => Kept.step
 refine ⟨kept.inStep, fun len => ⟨fun right => ?_, fun allowed => ⟨fun rounds fault => ?_, ?_⟩⟩⟩
 · obtain ⟨rounds, stream, done, -⟩ := right.ends
   rcases pop_spec kept rounds len with ⟨-, short⟩ | ⟨-, fault⟩ | ⟨allowed, -⟩
   · cases short.symm.trans done
   · cases fault.symm.trans done
   · exact allowed
 · rcases pop_spec kept rounds len with ⟨-, short⟩ | ⟨all, -⟩ | ⟨-, stream, done, -⟩
   · cases short.symm.trans fault
   · exact all allowed
   · cases done.symm.trans fault
 · rcases pop_spec kept session.stream.bufferData.length len with
    ⟨less, -⟩ | ⟨all, -⟩ | ⟨-, stream, done, after⟩
   · exact absurd less (Nat.lt_irrefl _)
   · exact absurd allowed all
   · exact ⟨_, stream, done, after.inStep⟩

theorem pop_right_iff_pushed : ∃ session,
 Run (Step version) (start 4) [.push [97, 98], .push [99]] session ∧ InStep session ∧
  ∀ len, PopsRight session len ↔ len = 0 ∨ len ≠ session.stream.bytesBuffered := by
 have run : Run (Step version) (start 4) [.push [97, 98], .push [99]] _ :=
  .snoc (.snoc .nil rfl) rfl
 exact ⟨_, run, pop_right_iff run⟩

/-- The only byte is pushed and popped. -/
theorem pop_goes_on : ¬ ∀ capacity calls session,
 Run (Step version) (start capacity) calls session → ∀ len, PopsRight session len := by
 intro all
 have run : Run (Step version) (start 1) [.push [97]] _ := .snoc .nil rfl
 exact (all _ _ _ run 1).safe 1 rfl

end ViewByteStream

end MyNotes.Cs144
