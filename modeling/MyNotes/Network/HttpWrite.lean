/-
`http_conn::write`, which sends a response with `writev`, over all outcomes of `writev`.

One run is about one response.  A step is a call of `write` or one `writev` of its loop, and the
outcome of the `writev` comes with the event.  A response without a file has one iovec.
-/

import Mathlib.Data.Int.Notation
import Mathlib.Data.Nat.Notation
import MyNotes.Library.Transition

namespace MyNotes.Network.HttpWrite

open Library.Transition List Option Int

/-- The distance of `iov_base` from the buffer, and `iov_len`. -/
structure Iovec where
 iovBase : ℤ
 iovLen : ℕ
 deriving DecidableEq

namespace Iovec

/-- The bytes that an iovec gives to `writev`; a byte outside of its buffer is unknown. -/
def bytes (self : Iovec) (buffer : List UInt8) : List (Option UInt8) :=
 (List.range self.iovLen).map fun (index : ℕ) =>
  if 0 ≤ self.iovBase + index then buffer[(self.iovBase + index).toNat]? else none

def Inside (self : Iovec) (buffer : List UInt8) : Prop :=
 0 ≤ self.iovBase ∧ self.iovBase + self.iovLen ≤ buffer.length

instance (self : Iovec) (buffer : List UInt8) : Decidable (self.Inside buffer) :=
 inferInstanceAs (Decidable (_ ∧ _))

theorem bytes_eq {self : Iovec} {buffer : List UInt8} {start : ℕ} (base : self.iovBase = start)
 (room : start + self.iovLen ≤ buffer.length) :
 self.bytes buffer = ((buffer.drop start).take self.iovLen).map some := by
 have length : ((buffer.drop start).take self.iovLen).length = self.iovLen := by
  rw [length_take, length_drop]
  omega
 apply ext_getElem
 · rw [bytes, length_map, length_range, length_map, length]
 · intro index bound _
   rw [bytes, length_map, length_range] at bound
   have nonnegative : 0 ≤ self.iovBase + index := by omega
   have place : (self.iovBase + index).toNat = start + index := by omega
   simp only [bytes, getElem_map, getElem_range, if_pos nonnegative]
   simp_all

theorem bytes_empty {self : Iovec} (buffer : List UInt8) (empty : self.iovLen = 0) :
 self.bytes buffer = [] := by
 rw [bytes, empty, range_zero, map_nil]

end Iovec

/-- The members of a connection that `write` uses. -/
structure HttpConn where
 /-- The first `m_write_idx` bytes of `m_write_buf`. -/
 mWriteBuf : List UInt8
 /-- The file at `m_file_address`, if the response has one. -/
 mFile : Option (List UInt8)
 mIv0 : Iovec
 mIv1 : Iovec
 bytesToSend : ℤ
 bytesHaveSend : ℕ
 mLinger : Bool

namespace HttpConn

/-- A response that is ready to be sent; without a file the second iovec is not set. -/
def ready (header : List UInt8) (file : Option (List UInt8)) (stale : Iovec) (linger : Bool) :
 HttpConn where
 mWriteBuf := header
 mFile := file
 mIv0 := ⟨0, header.length⟩
 mIv1 := file.elim stale fun content => ⟨0, content.length⟩
 bytesToSend := header.length + (file.getD []).length
 bytesHaveSend := 0
 mLinger := linger

/-- The bytes of the first `m_iv_count` iovecs. -/
def offered (self : HttpConn) : List (Option UInt8) :=
 self.mIv0.bytes self.mWriteBuf ++ self.mFile.elim [] self.mIv1.bytes

/-- The counters and the iovecs after `writev` has sent `temp` bytes. -/
def update (self : HttpConn) (temp : ℕ) : HttpConn :=
 let bytesHaveSend := self.bytesHaveSend + temp
 let bytesToSend := self.bytesToSend - temp
 if self.mIv0.iovLen ≤ bytesHaveSend then
  { self with
   bytesHaveSend := bytesHaveSend
   bytesToSend := bytesToSend
   mIv0 := { self.mIv0 with iovLen := 0 }
   -- No run makes `bytes_to_send` negative, so that its conversion to `size_t` is exact.
   mIv1 := ⟨bytesHaveSend - self.mWriteBuf.length, bytesToSend.toNat⟩ }
 else
  { self with
   bytesHaveSend := bytesHaveSend
   bytesToSend := bytesToSend
   mIv0 := ⟨bytesHaveSend, self.mIv0.iovLen - bytesHaveSend⟩ }

end HttpConn

inductive Phase where
 | idle
 | writing
 | returned (result : Bool)
 deriving DecidableEq

/-- What the socket is registered for with `modfd`. -/
inductive Interest where
 | epollin
 | epollout
 deriving DecidableEq

inductive Event where
 | call
 | sent (temp : ℕ)
 | eagain
 | failed
 deriving DecidableEq

structure State where
 conn : HttpConn
 phase : Phase
 interest : Interest
 mapped : Bool
 /-- The bytes handed to the socket. -/
 sent : List (Option UInt8)

namespace State

def start (header : List UInt8) (file : Option (List UInt8)) (stale : Iovec) (linger : Bool) :
 State where
 conn := .ready header file stale linger
 phase := .idle
 interest := .epollout
 mapped := file.isSome
 sent := []

/-- The loop after a `writev` of `temp` bytes. -/
def afterWritev (self : State) (temp : ℕ) : State :=
 let later : State := { self with
  conn := self.conn.update temp
  sent := self.sent ++ self.conn.offered.take temp }
 if later.conn.bytesToSend ≤ 0 then
  { later with mapped := false, interest := .epollin, phase := .returned self.conn.mLinger }
 else later

def step (self : State) : Event → Option State
 | .call =>
  if self.phase = .idle then
   if self.conn.bytesToSend = 0 then
    some { self with interest := .epollin, phase := .returned true }
   else some { self with phase := .writing }
  else none
 | .sent temp =>
  if self.phase = .writing ∧ 0 < temp ∧ temp ≤ self.conn.offered.length then
   some (self.afterWritev temp)
  else none
 | .eagain =>
  if self.phase = .writing then some { self with interest := .epollout, phase := .idle }
  else none
 | .failed =>
  if self.phase = .writing then some { self with mapped := false, phase := .returned false }
  else none

/-- The bytes sent are the first of the response, each once, and the iovecs stay in place. -/
structure SentOnce (header : List UInt8) (file : Option (List UInt8)) (state : State) : Prop where
 inOrder : state.sent <+: (header ++ file.getD []).map some
 whole : state.conn.bytesToSend = 0 → state.sent = (header ++ file.getD []).map some
 inHeader : state.conn.mIv0.Inside header
 inFile : ∀ content, file = some content → state.conn.mIv1.Inside content

/-- A `writev` other than the first does not stop inside of the header. -/
def HeaderOnce (self : State) : Event → Prop
 | .sent temp =>
  self.conn.bytesHaveSend = 0 ∨ self.conn.mWriteBuf.length ≤ self.conn.bytesHaveSend + temp
 | _ => True

instance (self : State) : ∀ event, Decidable (self.HeaderOnce event)
 | .sent _ => inferInstanceAs (Decidable (_ ∨ _))
 | .call => .isTrue trivial
 | .eagain => .isTrue trivial
 | .failed => .isTrue trivial

end State

/-! ### The iovecs point at what is left -/

section

variable {header : List UInt8} {file : Option (List UInt8)} {conn : HttpConn} {temp : ℕ}

/-- The counters and iovecs of a connection that has sent the first bytes of its response. -/
structure Pointed (header : List UInt8) (file : Option (List UInt8)) (conn : HttpConn) :
 Prop where
 writeBuf : conn.mWriteBuf = header
 mFile : conn.mFile = file
 within : conn.bytesHaveSend ≤ header.length + (file.getD []).length
 left : conn.bytesToSend + conn.bytesHaveSend = header.length + (file.getD []).length
 headerBase : conn.bytesHaveSend < header.length → conn.mIv0.iovBase = conn.bytesHaveSend
 headerInside : conn.mIv0.Inside header
 headerLen : conn.mIv0.iovLen = header.length - conn.bytesHaveSend
 fileIovec : ∀ content, file = some content → conn.mIv1 =
  ⟨(conn.bytesHaveSend - header.length : ℕ),
   content.length - (conn.bytesHaveSend - header.length)⟩

theorem pointed_ready (header : List UInt8) (file : Option (List UInt8)) (stale : Iovec)
 (linger : Bool) : Pointed header file (.ready header file stale linger) where
 writeBuf := rfl
 mFile := rfl
 within := Nat.zero_le _
 left := Int.add_zero _
 headerBase := fun _ => rfl
 headerInside := ⟨Int.le_refl _, Int.le_of_eq (Int.zero_add _)⟩
 headerLen := rfl
 fileIovec := by
  rintro content rfl
  simp only [HttpConn.ready, elim_some, Nat.zero_sub, Nat.sub_zero]
  rfl

namespace Pointed

variable (pointed : Pointed header file conn)
include pointed

theorem headerBytes : conn.mIv0.bytes header = (header.drop conn.bytesHaveSend).map some := by
 by_cases inside : conn.bytesHaveSend < header.length
 · rw [Iovec.bytes_eq (pointed.headerBase inside) (by rw [pointed.headerLen]; omega)]
   have all : (header.drop conn.bytesHaveSend).length ≤ conn.mIv0.iovLen :=
    Nat.le_of_eq (length_drop.trans pointed.headerLen.symm)
   rw [take_of_length_le all]
 · have behind : header.length ≤ conn.bytesHaveSend := Nat.le_of_not_lt inside
   rw [Iovec.bytes_empty _ (by rw [pointed.headerLen]; omega),
    drop_eq_nil_of_le behind, map_nil]

theorem fileBytes : file.elim [] conn.mIv1.bytes =
 ((file.getD []).drop (conn.bytesHaveSend - header.length)).map some := by
 cases file with
 | none => simp
 | some content =>
  have iovec := pointed.fileIovec content rfl
  have within := pointed.within
  rw [getD_some] at within
  rw [elim_some, getD_some, iovec, Iovec.bytes_eq rfl (by dsimp only; omega)]
  rw [take_of_length_le (Nat.le_of_eq length_drop)]

theorem offered : conn.offered =
 ((header ++ file.getD []).drop conn.bytesHaveSend).map some := by
 rw [HttpConn.offered, pointed.writeBuf, pointed.mFile, pointed.headerBytes, pointed.fileBytes,
  drop_append, map_append]

theorem room (some : temp ≤ conn.offered.length) :
 conn.bytesHaveSend + temp ≤ header.length + (file.getD []).length := by
 have within := pointed.within
 rw [pointed.offered, length_map, length_drop, length_append] at some
 omega

theorem update_file (offered : temp ≤ conn.offered.length)
 (past : header.length ≤ conn.bytesHaveSend + temp) : Pointed header file (conn.update temp) := by
 have room := pointed.room offered
 have left := pointed.left
 have inside := pointed.headerInside
 have branch : conn.mIv0.iovLen ≤ conn.bytesHaveSend + temp := by
  rw [pointed.headerLen]
  omega
 unfold HttpConn.update
 rw [if_pos branch]
 exact {
  writeBuf := pointed.writeBuf
  mFile := pointed.mFile
  within := room
  left := by dsimp only; omega
  headerBase := fun before => absurd before (Nat.not_lt_of_le past)
  headerInside := ⟨inside.1, by
   have end_ := inside.2
   dsimp only
   omega⟩
  headerLen := (Nat.sub_eq_zero_of_le past).symm
  fileIovec := by
   rintro content rfl
   rw [getD_some] at room left
   dsimp only
   rw [pointed.writeBuf, Iovec.mk.injEq]
   omega }

theorem update_header (first : conn.bytesHaveSend = 0) (short : temp < header.length) :
 Pointed header file (conn.update temp) := by
 have left := pointed.left
 have length := pointed.headerLen
 rw [first] at length
 have branch : ¬ conn.mIv0.iovLen ≤ conn.bytesHaveSend + temp := by omega
 unfold HttpConn.update
 rw [if_neg branch]
 exact {
  writeBuf := pointed.writeBuf
  mFile := pointed.mFile
  within := by dsimp only; omega
  left := by dsimp only; omega
  headerBase := fun _ => rfl
  headerInside := ⟨natCast_nonneg _, by dsimp only; omega⟩
  headerLen := by dsimp only; omega
  fileIovec := by
   intro content same
   have iovec := pointed.fileIovec content same
   grind }

theorem update (offered : temp ≤ conn.offered.length)
 (once : conn.bytesHaveSend = 0 ∨ header.length ≤ conn.bytesHaveSend + temp) :
 Pointed header file (conn.update temp) := by
 by_cases past : header.length ≤ conn.bytesHaveSend + temp
 · exact pointed.update_file offered past
 · have first : conn.bytesHaveSend = 0 := once.resolve_right past
   exact pointed.update_header first (by omega)

end Pointed

@[simp]
theorem update_bytesHaveSend (conn : HttpConn) (temp : ℕ) :
 (conn.update temp).bytesHaveSend = conn.bytesHaveSend + temp := by
 unfold HttpConn.update
 dsimp only
 split <;> rfl

end

/-! ### Runs -/

namespace State

variable {header : List UInt8} {file : Option (List UInt8)} {state : State} {temp : ℕ}

structure Faithful (header : List UInt8) (file : Option (List UInt8)) (state : State) : Prop where
 pointed : Pointed header file state.conn
 sent : state.sent = ((header ++ file.getD []).take state.conn.bytesHaveSend).map some

@[simp]
theorem afterWritev_conn (self : State) (temp : ℕ) :
 (self.afterWritev temp).conn = self.conn.update temp := by
 unfold afterWritev
 dsimp only
 split <;> rfl

@[simp]
theorem afterWritev_sent (self : State) (temp : ℕ) :
 (self.afterWritev temp).sent = self.sent ++ self.conn.offered.take temp := by
 unfold afterWritev
 dsimp only
 split <;> rfl

section

variable (faithful : Faithful header file state)
include faithful

theorem Faithful.after_sent (offered : temp ≤ state.conn.offered.length)
 (once : state.HeaderOnce (.sent temp)) : Faithful header file (state.afterWritev temp) where
 pointed := by
  rw [afterWritev_conn]
  unfold HeaderOnce at once
  rw [faithful.pointed.writeBuf] at once
  exact faithful.pointed.update offered once
 sent := by
  rw [afterWritev_sent, afterWritev_conn, update_bytesHaveSend, faithful.sent,
   faithful.pointed.offered, ← map_take, ← map_append, ← take_add]

theorem Faithful.after_step {next : State} {event : Event} (once : state.HeaderOnce event)
 (taken : state.step event = some next) : Faithful header file next := by
 cases event with
 | call =>
  simp only [State.step, ite_none_right_eq_some] at taken
  obtain ⟨_, result⟩ := taken
  split at result <;> cases result <;> exact ⟨faithful.pointed, faithful.sent⟩
 | sent temp =>
  simp only [State.step, ite_none_right_eq_some] at taken
  obtain ⟨⟨_, _, offered⟩, result⟩ := taken
  cases result
  exact faithful.after_sent offered once
 | eagain =>
  simp only [State.step, ite_none_right_eq_some] at taken
  obtain ⟨_, result⟩ := taken
  cases result
  exact ⟨faithful.pointed, faithful.sent⟩
 | failed =>
  simp only [State.step, ite_none_right_eq_some] at taken
  obtain ⟨_, result⟩ := taken
  cases result
  exact ⟨faithful.pointed, faithful.sent⟩

theorem Faithful.sentOnce : SentOnce header file state where
 inOrder := by
  rw [faithful.sent, map_take]
  exact take_prefix _ _
 whole := by
  intro zero
  have left := faithful.pointed.left
  rw [faithful.sent, take_of_length_le]
  rw [length_append]
  omega
 inHeader := faithful.pointed.headerInside
 inFile := by
  rintro content same
  have within := faithful.pointed.within
  rw [faithful.pointed.fileIovec content same]
  rw [same, getD_some] at within
  exact ⟨natCast_nonneg _, by dsimp only; omega⟩

end

/--
The response is sent once and in order in every run in which at most the first `writev` stops
inside of the header.
-/
theorem write_sends_once (header : List UInt8) (file : Option (List UInt8)) (stale : Iovec)
 (linger : Bool) {events : List Event} {final : State}
 (run : Run (Guarded HeaderOnce (ofFunction step)) (start header file stale linger) events
  final) : SentOnce header file final := by
 have initial : Faithful header file (start header file stale linger) :=
  ⟨pointed_ready header file stale linger, rfl⟩
 have faithful := run.invariant initial fun _ _ _ before taken => before.after_step taken.1 taken.2
 exact faithful.sentOnce

theorem write_sends_once_example : ∃ final,
 Run (Guarded HeaderOnce (ofFunction step)) (start [1, 2, 3] (some [4, 5]) ⟨0, 0⟩ true)
  [.call, .sent 2, .eagain, .call, .sent 2, .sent 1] final ∧
 final.phase = .returned true ∧ SentOnce [1, 2, 3] (some [4, 5]) final := by
 have replayed : (replay (restrict HeaderOnce step) (start [1, 2, 3] (some [4, 5]) ⟨0, 0⟩ true)
  [.call, .sent 2, .eagain, .call, .sent 2, .sent 1]).map (·.phase) =
   some (.returned true) := by decide +kernel
 obtain ⟨final, reached, phase⟩ := map_eq_some_iff.mp replayed
 have run := Run.of_replay reached
 exact ⟨final, run, phase, write_sends_once _ _ _ _ run⟩

/--
The second `writev` stops inside of the header, four bytes of five sent.  The next one starts a
byte before the file, and the last byte of the header is never sent.
-/
theorem write_leaves_header : ∃ final,
 Run (ofFunction step) (start [1, 2, 3, 4, 5] (some [6, 7]) ⟨0, 0⟩ true)
  [.call, .sent 3, .sent 1, .sent 3] final ∧
 final.conn.bytesToSend = 0 ∧
 final.sent = [some 1, some 2, some 3, some 4, none, some 6, some 7] ∧
 ¬ SentOnce [1, 2, 3, 4, 5] (some [6, 7]) final := by
 have replayed : (replay step (start [1, 2, 3, 4, 5] (some [6, 7]) ⟨0, 0⟩ true)
  [.call, .sent 3, .sent 1, .sent 3]).map
   (fun state => (state.conn.bytesToSend, state.sent)) =
  some (0, [some 1, some 2, some 3, some 4, none, some 6, some 7]) := by decide +kernel
 obtain ⟨final, reached, same⟩ := map_eq_some_iff.mp replayed
 have zero : final.conn.bytesToSend = 0 := congrArg Prod.fst same
 have sent : final.sent = [some 1, some 2, some 3, some 4, none, some 6, some 7] :=
  congrArg Prod.snd same
 refine ⟨final, Run.of_replay_all reached, zero, sent, fun once => ?_⟩
 have whole := once.whole zero
 rw [sent] at whole
 revert whole
 decide

end State

end MyNotes.Network.HttpWrite
