/-
Runs of a reassembler: any sequence of `insert` calls and reads.

The calls carry substrings of one stream in any order, overlapping and repeated.
The data invariant and the closing law are about the first version; the last
part compares the two versions call by call.
-/

import MyNotes.Cs144.ReassemblerSound
import MyNotes.Library.Transition

namespace MyNotes.Cs144.Reassembler

open Library.Segment Option Reassembler List Bool
open Library.Transition

inductive Call
 | insert (firstIndex : ℕ) (data : List Byte) (isLastSubstring : Bool)
 | pop (len : ℕ)

/-- The reassembler with what its two users have seen of it: the bytes read, the
index ranges offered below the window's edge, and whether a last substring ended
in the window. -/
structure Client where
 reassembler : Reassembler
 delivered : List Byte
 offered : List (ℕ × ℕ)
 lastAccepted : Bool

/-- The edge of the accepted window, before any machine arithmetic. -/
def windowEdge (self : Reassembler) : ℕ :=
 self.nextIndex + self.output.availableCapacity

def pop (self : Reassembler) (len : ℕ) : Reassembler :=
 { self with output := self.output.pop len }

namespace Client

def new (capacity : UInt64) : Client :=
 { reassembler := Reassembler.new (ByteStream.empty capacity)
   delivered := []
   offered := []
   lastAccepted := false }

/-- One call, with the version of `insert` as a parameter. -/
def call (insertVersion : Reassembler → ℕ → List Byte → Bool → Option Reassembler)
 (client : Client) : Call → Option Client
 | .insert firstIndex data isLastSubstring =>
  let stop := firstIndex + data.length
  let edge := client.reassembler.windowEdge
  (insertVersion client.reassembler firstIndex data isLastSubstring).map
   fun reassembler =>
    { reassembler := reassembler
      delivered := client.delivered
      offered := client.offered ++ [(firstIndex, min stop edge)]
      lastAccepted := client.lastAccepted ||
       (isLastSubstring && decide (stop ≤ edge)) }
 | .pop len =>
  some { client with
   reassembler := client.reassembler.pop len
   delivered := client.delivered ++ client.reassembler.output.contents.take len }

end Client

def Call.Agrees (stream : ℕ → Byte) : Call → Prop
 | .insert firstIndex data _ => data = segment stream firstIndex data.length
 | .pop _ => True

instance (stream : ℕ → Byte) (call : Call) : Decidable (call.Agrees stream) :=
 match call with
 | .insert firstIndex data _ =>
  inferInstanceAs (Decidable (data = segment stream firstIndex data.length))
 | .pop _ => inferInstanceAs (Decidable True)

def Call.Below (bound : ℕ) : Call → Prop
 | .insert firstIndex data _ => firstIndex + data.length < bound
 | .pop _ => True

instance (bound : ℕ) (call : Call) : Decidable (call.Below bound) :=
 match call with
 | .insert firstIndex data _ => inferInstanceAs (Decidable (firstIndex + data.length < bound))
 | .pop _ => inferInstanceAs (Decidable True)

/-! ### Reads -/

variable {stream : ℕ → Byte}

theorem Sound.pop {self : Reassembler} (sound : self.Sound stream) (len : ℕ) :
 (self.pop len).Sound stream where
 next_eq := sound.next_eq
 blocks := sound.blocks
 above := sound.above
 below := by
  intro block member
  have inside := sound.below block member
  change block.last < self.nextIndex + (self.output.pop len).availableCapacity
  rw [ByteStream.pop_availableCapacity]
  omega
 size := sound.size

/-! ### The data invariant -/

/-- Everything the reassembler holds is the stream's, in order, and nothing that
was offered inside the window has been lost. -/
structure DataInvariant (stream : ℕ → Byte) (client : Client) : Prop where
 pushed : client.delivered ++ client.reassembler.output.contents =
  segment stream 0 client.reassembler.nextIndex
 next_eq : client.reassembler.nextIndex = client.reassembler.output.bytesPushed
 sorted : client.reassembler.buffer.Pairwise (fun left right => left.last < right.first)
 blocks : ∀ block ∈ client.reassembler.buffer,
  block.first ≤ block.last ∧
   block.data = segment stream block.first (block.last + 1 - block.first) ∧
   client.reassembler.nextIndex < block.first ∧
   block.last < client.reassembler.windowEdge
 pending : client.reassembler.bytesPending =
  (client.reassembler.buffer.map (fun block => block.data.length)).sum
 kept : ∀ range ∈ client.offered, ∀ index, range.1 ≤ index → index < range.2 →
  client.reassembler.Known index

/-- The edge of the window fits in a machine word when a substring is inserted. -/
def EdgeFits (client : Client) : Call → Prop
 | .insert _ _ _ => client.reassembler.windowEdge < 2 ^ 64
 | .pop _ => True

instance (client : Client) (call : Call) : Decidable (EdgeFits client call) :=
 match call with
 | .insert _ _ _ => inferInstanceAs (Decidable (client.reassembler.windowEdge < 2 ^ 64))
 | .pop _ => inferInstanceAs (Decidable True)

/-- The data invariant, in the form that one call preserves. -/
structure Holding (stream : ℕ → Byte) (client : Client) : Prop where
 sound : client.reassembler.Sound stream
 pushed : client.delivered ++ client.reassembler.output.contents =
  segment stream 0 client.reassembler.nextIndex
 kept : ∀ range ∈ client.offered, ∀ index, range.1 ≤ index → index < range.2 →
  client.reassembler.Known index

variable {client : Client}

theorem Holding.dataInvariant (holding : Holding stream client) : DataInvariant stream client where
 pushed := holding.pushed
 next_eq := holding.sound.next_eq
 sorted := holding.sound.blocks.sorted
 blocks := by
  intro block member
  have holds := holding.sound.blocks.holds block member
  have above := holding.sound.above block member
  exact ⟨holds.nonempty, holds.content, by omega, holding.sound.below block member⟩
 pending := holding.sound.size
 kept := holding.kept

theorem new_holding (stream : ℕ → Byte) (capacity : UInt64) :
 Holding stream (Client.new capacity) where
 sound := new_sound stream _ rfl
 pushed := rfl
 kept := by intro range member; cases member

theorem pushed_of_appended {delivered : List Byte} {old new : ByteStream} {next next' : ℕ}
 (ordered : next ≤ next') (before : delivered ++ old.contents = segment stream 0 next)
 (output : ByteStream.Appended old new (segment stream next (next' - next))) :
 delivered ++ new.contents = segment stream 0 next' := by
 have whole := segment_append stream 0 next (next' - next)
 rw [Nat.zero_add, Nat.add_sub_cancel' ordered] at whole
 rw [output.contents, ← append_assoc, before, whole]

variable {first : ℕ} {isLastSubstring : Bool} {result : Reassembler} {event : Call}

theorem Holding.afterInsert (holding : Holding stream client) {data : List Byte}
 (content : data = segment stream first data.length)
 (room : client.reassembler.windowEdge < 2 ^ 64)
 (returned : client.reassembler.insert first data isLastSubstring = some result)
 (lastAccepted : Bool) :
 Holding stream
  { reassembler := result
    delivered := client.delivered
    offered := client.offered ++
     [(first, min (first + data.length) client.reassembler.windowEdge)]
    lastAccepted := lastAccepted } := by
 have grown := insert_grown holding.sound content returned
 refine ⟨grown.sound, pushed_of_appended grown.advance holding.pushed grown.output, ?_⟩
 intro range member index low high
 rcases mem_append.mp member with earlier | latest
 · exact grown.keeps index (holding.kept range earlier index low high)
 · rw [mem_singleton.mp latest] at low high
   exact grown.gains room index low (by omega)
    (lt_of_lt_of_le high (Nat.min_le_right _ _))

theorem Holding.afterPop (holding : Holding stream client) (len : ℕ) :
 Holding stream
  { client with
   reassembler := client.reassembler.pop len
   delivered := client.delivered ++ client.reassembler.output.contents.take len } where
 sound := holding.sound.pop len
 pushed := by
  change _ ++ (client.reassembler.output.pop len).contents = _
  rw [ByteStream.pop_contents, append_assoc, take_append_drop]
  exact holding.pushed
 kept := holding.kept

theorem Holding.call {stream : ℕ → Byte} {client next : Client} (holding : Holding stream client)
 (agrees : event.Agrees stream) (fits : EdgeFits client event)
 (taken : client.call insert event = some next) : Holding stream next := by
 cases event with
 | insert first data isLastSubstring =>
  obtain ⟨result, returned, outcome⟩ := map_eq_some_iff.mp taken
  rw [← outcome]
  exact holding.afterInsert agrees fits returned _
 | pop len =>
  cases taken
  exact holding.afterPop len

theorem Holding.call_isSome (holding : Holding stream client) (agrees : event.Agrees stream)
 (fits : EdgeFits client event) : (client.call insert event).isSome = true := by
 cases event with
 | pop len => rfl
 | insert first data isLastSubstring =>
  change (Option.map _ (client.reassembler.insert first data isLastSubstring)).isSome = _
  rw [isSome_map]
  by_cases empty : data = []
  · rw [insert, if_pos empty]
    rfl
  · have inserted := insert_spec isLastSubstring holding.sound empty agrees
    have edge := lastIndex_eq_of_lt fits
    generalize client.reassembler.insert first data isLastSubstring = outcome at inserted
    cases inserted with
    | ignored outside => rfl
    | taken reaches edge absorbs => rfl
    | thrown reaches wrapped => omega

theorem holding_of_run {capacity : UInt64} {calls : List Call}
 (run : Run (Guarded (fun client call => call.Agrees stream ∧ EdgeFits client call)
  (ofFunction (Client.call insert))) (Client.new capacity) calls client) :
 Holding stream client :=
 run.invariant (new_holding stream capacity) fun _ _ _ holding taken =>
  holding.call taken.1.1 taken.1.2 taken.2

/-- As long as the window's edge fits in a machine word at every insertion, every
reachable state satisfies the data invariant and no call throws. -/
theorem data_invariant (stream : ℕ → Byte) (capacity : UInt64) (calls : List Call)
 (client : Client)
 (run : Run (Guarded (fun client call => call.Agrees stream ∧ EdgeFits client call)
  (ofFunction (Client.call insert))) (Client.new capacity) calls client) :
 DataInvariant stream client ∧
  ∀ call : Call, call.Agrees stream → EdgeFits client call →
   (client.call insert call).isSome = true :=
 ⟨(holding_of_run run).dataInvariant, fun _ agrees fits =>
  (holding_of_run run).call_isSome agrees fits⟩

theorem data_invariant_reordered :
 ∃ client, Run (Guarded
  (fun client call => call.Agrees (fun index => UInt8.ofNat index) ∧ EdgeFits client call)
  (ofFunction (Client.call insert))) (Client.new 4)
  [.insert 2 [2, 3] false, .insert 0 [0, 1, 2] false, .pop 2] client ∧
  DataInvariant (fun index => UInt8.ofNat index) client := by
 obtain ⟨client, replayed⟩ := isSome_iff_exists.mp
  (show (replay (restrict
   (fun client call => call.Agrees (fun index => UInt8.ofNat index) ∧ EdgeFits client call)
   (Client.call Reassembler.insert)) (Client.new 4)
   [.insert 2 [2, 3] false, .insert 0 [0, 1, 2] false, .pop 2]).isSome = true by decide)
 have run := Run.of_replay replayed
 exact ⟨client, run, (data_invariant _ _ _ client run).1⟩

/-- With the largest capacity and one byte read, the edge of the window wraps to
zero and an in-order byte is dropped. -/
theorem data_invariant_fails_at_full_capacity :
 ∃ client, Run (Guarded
  (fun _ call => call.Agrees (fun index => UInt8.ofNat index) ∧ call.Below (2 ^ 63))
  (ofFunction (Client.call Reassembler.insert))) (Client.new 18446744073709551615)
  [.insert 0 [0] false, .pop 1, .insert 1 [1] false] client ∧
  ¬ DataInvariant (fun index => UInt8.ofNat index) client := by
 have final : (replay (restrict
  (fun _ call => call.Agrees (fun index => UInt8.ofNat index) ∧ call.Below (2 ^ 63))
  (Client.call Reassembler.insert)) (Client.new 18446744073709551615)
  [.insert 0 [0] false, .pop 1, .insert 1 [1] false]).map
  (fun client => (client.offered, client.reassembler.nextIndex, client.reassembler.buffer)) =
  some ([(0, 1), (1, 2)], 1, []) := by decide
 obtain ⟨client, replayed, visible⟩ := map_eq_some_iff.mp final
 refine ⟨client, Run.of_replay replayed, fun invariant => ?_⟩
 rw [Prod.mk.injEq, Prod.mk.injEq] at visible
 obtain ⟨offered, next, buffer⟩ := visible
 have known := invariant.kept (1, 2) (by rw [offered]; decide) 1 (le_refl _) (by decide)
 unfold Known at known
 simp_all

/-! ### The closing law -/

def streamOf (bytes : List Byte) : ℕ → Byte := fun index => bytes.getD index 0

/-- The call carries a slice of the stream and is marked last exactly when the
slice ends with the stream. -/
def Call.Consistent (bytes : List Byte) : Call → Prop
 | .insert firstIndex data isLastSubstring =>
  firstIndex + data.length ≤ bytes.length ∧
   data = (bytes.drop firstIndex).take data.length ∧
   (isLastSubstring = true ↔ firstIndex + data.length = bytes.length)
 | .pop _ => True

instance (bytes : List Byte) (call : Call) : Decidable (call.Consistent bytes) :=
 match call with
 | .insert firstIndex data isLastSubstring =>
  inferInstanceAs (Decidable (firstIndex + data.length ≤ bytes.length ∧
   data = (bytes.drop firstIndex).take data.length ∧
   (isLastSubstring = true ↔ firstIndex + data.length = bytes.length)))
 | .pop _ => inferInstanceAs (Decidable True)

def ClosingLaw (bytes : List Byte) (client : Client) : Prop :=
 client.reassembler.output.closed = true ↔
  client.lastAccepted = true ∧ client.reassembler.output.bytesPushed = bytes.length

/-- An empty last substring comes only after the bytes before it. -/
def EmptyLastInOrder (bytes : List Byte) (client : Client) : Call → Prop
 | .insert _ data isLastSubstring =>
  data = [] → isLastSubstring = true → client.reassembler.nextIndex = bytes.length
 | .pop _ => True

instance (bytes : List Byte) (client : Client) (call : Call) :
 Decidable (EmptyLastInOrder bytes client call) :=
 match call with
 | .insert _ data isLastSubstring =>
  inferInstanceAs (Decidable (data = [] → isLastSubstring = true →
   client.reassembler.nextIndex = bytes.length))
 | .pop _ => inferInstanceAs (Decidable True)

/-- The sticky flag stands exactly when the last byte is known, so the drain loop
closes the output with the last byte and not before. -/
structure Closing (bytes : List Byte) (client : Client) : Prop where
 sound : client.reassembler.Sound (streamOf bytes)
 bounded : ∀ index, client.reassembler.Known index → index < bytes.length
 hadLast : client.reassembler.hadLast = true ↔
  0 < bytes.length ∧ client.reassembler.Known (bytes.length - 1)
 accepted : client.reassembler.hadLast = true → client.lastAccepted = true
 law : client.reassembler.output.closed = true ↔
  client.lastAccepted = true ∧ client.reassembler.nextIndex = bytes.length

variable {bytes : List Byte}

theorem Closing.closingLaw (closing : Closing bytes client) : ClosingLaw bytes client := by
 unfold ClosingLaw
 rw [← closing.sound.next_eq]
 exact closing.law

theorem new_closing (bytes : List Byte) (capacity : UInt64) :
 Closing bytes (Client.new capacity) := by
 have unknown : ∀ index, ¬ (Client.new capacity).reassembler.Known index := by
  rintro index (below | covered)
  · exact Nat.not_lt_zero _ below
  · exact covers_nil _ covered
 refine ⟨new_sound _ _ rfl, ?_, ?_, ?_, ?_⟩
 · simp_all
 · constructor
   · intro impossible; cases impossible
   · simp_all
 · intro impossible; cases impossible
 · constructor
   · intro impossible; cases impossible
   · intro impossible; cases impossible.1

section

variable (closing : Closing bytes client)
include closing

theorem Closing.ignored (ended : Bool)
 (resent : ended = true → client.reassembler.nextIndex = bytes.length →
  0 < bytes.length) :
 client.reassembler.output.closed = true ↔
  (client.lastAccepted || ended) = true ∧
   client.reassembler.nextIndex = bytes.length := by
 rw [or_eq_true]
 constructor
 · intro closed
   have open_law := closing.law.mp closed
   exact ⟨.inl open_law.1, open_law.2⟩
 · rintro ⟨accepted | last, complete⟩
   · exact closing.law.mpr ⟨accepted, complete⟩
   · have positive := resent last complete
     have had := closing.hadLast.mpr ⟨positive, .inl (by omega)⟩
     exact closing.law.mpr ⟨closing.accepted had, complete⟩

theorem Closing.taken {length : ℕ} (positive : 0 < length) (within : first + length ≤ bytes.length)
 (last : isLastSubstring = true ↔ first + length = bytes.length)
 (reaches : client.reassembler.Reaches first length)
 (absorbs : Absorbs (streamOf bytes) client.reassembler result
  (max first client.reassembler.nextIndex)
  (min (first + length) client.reassembler.windowEdge)
  (isLastSubstring && decide (first + length ≤ client.reassembler.windowEdge)))
 (offered : List (ℕ × ℕ)) :
 Closing bytes
  { reassembler := result
    delivered := client.delivered
    offered := offered
    lastAccepted := client.lastAccepted ||
     (isLastSubstring && decide (first + length ≤ client.reassembler.windowEdge)) } := by
 have nextReaches := reaches.1
 have bounded : ∀ index, result.Known index → index < bytes.length := by
  intro index known
  rcases (absorbs.known index).mp known with old | new
  · exact closing.bounded index old
  · omega
 have hadLast : result.hadLast = true ↔
  0 < bytes.length ∧ result.Known (bytes.length - 1) := by
  rw [absorbs.hadLast, or_eq_true, and_eq_true, decide_eq_true_eq, closing.hadLast,
   absorbs.known, last]
  constructor
  · rintro (⟨nonempty, known⟩ | ⟨ends, inWindow⟩)
    · exact ⟨nonempty, .inl known⟩
    · refine ⟨by omega, ?_⟩
      by_cases pushed : bytes.length - 1 < client.reassembler.nextIndex
      · exact .inl (.inl pushed)
      · exact .inr ⟨by omega, by omega⟩
  · rintro ⟨nonempty, known | new⟩
    · exact .inl ⟨nonempty, known⟩
    · exact .inr ⟨by omega, by omega⟩
 have accepted : result.hadLast = true → (client.lastAccepted ||
  (isLastSubstring && decide (first + length ≤ client.reassembler.windowEdge))) = true := by
  rw [absorbs.hadLast, or_eq_true, or_eq_true]
  exact Or.imp_left closing.accepted
 have next_le : result.nextIndex ≤ bytes.length := by
  by_contra beyond
  have known := bounded bytes.length (.inl (by omega))
  omega
 refine ⟨absorbs.sound, bounded, hadLast, accepted, ?_⟩
 change result.output.closed = true ↔ _ ∧ result.nextIndex = bytes.length
 rw [absorbs.closed, or_eq_true, and_eq_true, List.isEmpty_iff]
 constructor
 · rintro (closed | ⟨had, drained⟩)
   · have old := closing.law.mp closed
     exact ⟨by rw [old.1]; rfl, by omega⟩
   · refine ⟨accepted had, ?_⟩
     have lastByte := (hadLast.mp had).2
     have below := absorbs.sound.buffer_eq_nil_iff.mp drained _ lastByte
     omega
 · rintro ⟨-, complete⟩
   refine .inr ⟨hadLast.mpr ⟨by omega, .inl (by omega)⟩,
    absorbs.sound.buffer_eq_nil_iff.mpr fun index known => ?_⟩
   rw [complete]
   exact bounded index known

theorem Closing.afterInsert {data : List Byte}
 (consistent : (Call.insert first data isLastSubstring).Consistent bytes)
 (inOrder : EmptyLastInOrder bytes client (.insert first data isLastSubstring))
 (returned : client.reassembler.insert first data isLastSubstring = some result)
 (offered : List (ℕ × ℕ)) :
 Closing bytes
  { reassembler := result
    delivered := client.delivered
    offered := offered
    lastAccepted := client.lastAccepted || (isLastSubstring &&
     decide (first + data.length ≤ client.reassembler.windowEdge)) } := by
 obtain ⟨within, slice, last⟩ := consistent
 by_cases empty : data = []
 · rw [insert, if_pos empty] at returned
   subst empty
   cases isLastSubstring with
   | false =>
    cases returned
    rw [Bool.false_and, Bool.or_false]
    exact ⟨closing.sound, closing.bounded, closing.hadLast, closing.accepted, closing.law⟩
   | true =>
    cases returned
    have complete : client.reassembler.nextIndex = bytes.length := inOrder rfl rfl
    have inWindow : first + ([] : List Byte).length ≤ client.reassembler.windowEdge := by
     unfold windowEdge
     omega
    rw [decide_eq_true inWindow, Bool.and_self, Bool.or_true]
    exact ⟨closeOutput_sound closing.sound, closing.bounded, closing.hadLast,
     fun _ => rfl, ⟨fun _ => ⟨rfl, complete⟩, fun _ => rfl⟩⟩
 · have positive := length_pos_iff.mpr empty
   have content : data = segment (streamOf bytes) first data.length :=
    slice.trans (slice_eq_segment bytes 0 within)
   have inserted := insert_spec isLastSubstring closing.sound empty content
   rw [returned] at inserted
   cases inserted with
   | taken reaches edge absorbs =>
    exact closing.taken positive within last reaches absorbs offered
   | ignored outside =>
    refine ⟨closing.sound, closing.bounded, closing.hadLast, ?_, ?_⟩
    · intro had
      rw [closing.accepted had, Bool.true_or]
    · exact closing.ignored _ fun _ _ => by omega

end

theorem Closing.call {bytes : List Byte} {client next : Client} (closing : Closing bytes client)
 (consistent : event.Consistent bytes) (inOrder : EmptyLastInOrder bytes client event)
 (taken : client.call insert event = some next) : Closing bytes next := by
 cases event with
 | insert first data isLastSubstring =>
  obtain ⟨result, returned, outcome⟩ := map_eq_some_iff.mp taken
  rw [← outcome]
  exact closing.afterInsert consistent inOrder returned _
 | pop len =>
  cases taken
  exact ⟨closing.sound.pop len, closing.bounded, closing.hadLast, closing.accepted,
   closing.law⟩

/-- If empty last substrings come in order, the output is closed exactly when a
last substring has ended in the window and every byte has been pushed. -/
theorem closing_law (bytes : List Byte) (capacity : UInt64) (calls : List Call)
 (client : Client)
 (run : Run (Guarded
  (fun client call => call.Consistent bytes ∧ EmptyLastInOrder bytes client call)
  (ofFunction (Client.call insert))) (Client.new capacity) calls client) :
 ClosingLaw bytes client := by
 have closing : Closing bytes client :=
  run.invariant (new_closing bytes capacity) fun _ _ _ closing taken =>
   closing.call taken.1.1 taken.1.2 taken.2
 exact closing.closingLaw

theorem closing_law_reordered :
 ∃ client, Run (Guarded
  (fun client call => call.Consistent [7, 8] ∧ EmptyLastInOrder [7, 8] client call)
  (ofFunction (Client.call Reassembler.insert))) (Client.new 2)
  [.insert 1 [8] true, .insert 0 [7] false, .pop 1, .insert 2 [] true] client ∧
  ClosingLaw [7, 8] client := by
 obtain ⟨client, replayed⟩ := isSome_iff_exists.mp
  (show (replay (restrict
   (fun client call => call.Consistent [7, 8] ∧ EmptyLastInOrder [7, 8] client call)
   (Client.call Reassembler.insert)) (Client.new 2)
   [.insert 1 [8] true, .insert 0 [7] false, .pop 1, .insert 2 [] true]).isSome = true
   by decide)
 have run := Run.of_replay replayed
 exact ⟨client, run, closing_law _ _ _ client run⟩

/-- An empty last substring that overtakes the only byte closes the output at once. -/
theorem closing_law_fails_out_of_order :
 ∃ client, Run (Guarded (fun _ call => call.Consistent [7])
  (ofFunction (Client.call Reassembler.insert))) (Client.new 1)
  [.insert 1 [] true] client ∧
  ¬ ClosingLaw [7] client := by
 have final : (replay (restrict (fun _ call => call.Consistent [7])
  (Client.call Reassembler.insert)) (Client.new 1) [.insert 1 [] true]).map
  (fun client => (client.reassembler.output.closed,
   client.reassembler.output.bytesPushed)) = some (true, 0) := by decide
 obtain ⟨client, replayed, visible⟩ := map_eq_some_iff.mp final
 refine ⟨client, Run.of_replay replayed, fun law => ?_⟩
 rw [Prod.mk.injEq] at visible
 have complete := (law.mp visible.1).2
 rw [visible.2] at complete
 cases complete

end MyNotes.Cs144.Reassembler
