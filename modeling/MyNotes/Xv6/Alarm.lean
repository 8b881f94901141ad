/-
User alarms of lab 4: `sys_sigalarm`, `sys_sigreturn` and the timer branch of `usertrap`.

A trap saves the user registers in the trap frame, and the return from it loads them again.
Next to the process a run keeps the registers at the ticks whose handlers have not called
`sigreturn` yet, newest first, and the ticks with no handler active since the alarm was last
set or went off.  A timer interrupt in the kernel does not get to `usertrap`.
-/

import MyNotes.Library.Transition
import Mathlib.Data.Int.Notation

namespace MyNotes.Xv6.Alarm

open Library.Transition List Bool

inductive Register where
 | ra | sp | gp | tp
 | t0 | t1 | t2 | t3 | t4 | t5 | t6
 | s0 | s1 | s2 | s3 | s4 | s5 | s6 | s7 | s8 | s9 | s10 | s11
 | a0 | a1 | a2 | a3 | a4 | a5 | a6 | a7
 deriving DecidableEq

/-- The user's part of `struct trapframe`. -/
structure Trapframe where
 epc : UInt64
 reg : Register → UInt64

def Trapframe.setA0 (self : Trapframe) (value : UInt64) : Trapframe :=
 { self with reg := fun register => if register = .a0 then value else self.reg register }

structure Proc where
 trapframe : Trapframe
 alarmInterval : ℤ
 alarmHandler : UInt64
 ticksSinceAlarm : ℤ
 alarmTf : Trapframe
 inAlarmHandler : Bool

structure State where
 proc : Proc
 /-- The registers of the user program. -/
 user : Trapframe
 active : List Trapframe
 quiet : ℤ

inductive Event where
 /-- The user program computes. -/
 | run (user : Trapframe)
 | tick
 | sigalarm
 | sigreturn
 | syscall (result : UInt64)

/-! ### The kernel -/

namespace Proc

/-- `argint(0, &interval)` -/
def argint (self : Proc) : ℤ := (self.trapframe.reg .a0).toUInt32.toInt32.toInt

/-- `argaddr(1, &handler)` -/
def argaddr (self : Proc) : UInt64 := self.trapframe.reg .a1

def sysSigalarm (self : Proc) : Proc × UInt64 :=
 ({ self with
  alarmInterval := self.argint
  alarmHandler := self.argaddr
  ticksSinceAlarm := 0
  inAlarmHandler := false }, 0)

def sysSigreturn (self : Proc) : Proc × UInt64 :=
 ({ self with trapframe := self.alarmTf, inAlarmHandler := false }, 0)

/-- `p->trapframe->a0 = syscalls[num]()` -/
def dispatch (result : Proc × UInt64) : Proc :=
 { result.1 with trapframe := result.1.trapframe.setA0 result.2 }

def counts (self : Proc) : Bool := self.alarmInterval > 0 && !self.inAlarmHandler

def goesOff (self : Proc) : Bool :=
 self.counts && self.ticksSinceAlarm + 1 ≥ self.alarmInterval

/-- The branch of `usertrap` for `which_dev == 2`. -/
def timer (self : Proc) : Proc :=
 if self.goesOff then
  { self with
   ticksSinceAlarm := 0
   alarmTf := self.trapframe
   trapframe := { self.trapframe with epc := self.alarmHandler }
   inAlarmHandler := true }
 else if self.counts then { self with ticksSinceAlarm := self.ticksSinceAlarm + 1 }
 else self

end Proc

namespace State

section

variable (self : State)

/-- `uservec` -/
def trap : Proc := { self.proc with trapframe := self.user }

/-- A system call goes on behind the `ecall`. -/
def ecall : Proc :=
 { self.proc with trapframe := { self.user with epc := self.user.epc + 4 } }

/-- `usertrapret` -/
def back (proc : Proc) : State :=
 { self with proc := proc, user := proc.trapframe }

def step : Event → State
 | .run user => { self with user := user }
 | .tick =>
  let next := self.back self.trap.timer
  if self.trap.goesOff then
   { next with active := self.user :: self.active, quiet := 0 }
  else if self.active.isEmpty then { next with quiet := self.quiet + 1 } else next
 | .sigalarm => { self.back (Proc.dispatch self.ecall.sysSigalarm) with quiet := 0 }
 | .sigreturn =>
  { self.back (Proc.dispatch self.ecall.sysSigreturn) with active := self.active.tail }
 | .syscall result => self.back (Proc.dispatch (self.ecall, result))

def takes (event : Event) (next : State) : Prop := self.step event = next

/-- Only a handler calls `sigreturn`. -/
def permits : Event → Prop
 | .sigreturn => self.active ≠ []
 | _ => True

/-- A handler sets no alarm, unless it turns it off, and the register in which `sigreturn`
returns was zero at the tick. -/
def avoids : Event → Prop
 | .sigalarm => self.active = [] ∨ self.ecall.argint ≤ 0
 | .sigreturn => self.proc.alarmTf.reg .a0 = 0
 | _ => True

end

/-- The process after `allocproc`. -/
structure Initial (state : State) : Prop where
 alarmInterval : state.proc.alarmInterval = 0
 inAlarmHandler : state.proc.inAlarmHandler = false
 active : state.active = []

def enters (self next : State) : Prop := next.active = self.user :: self.active

structure Transparent (state : State) (event : Event) (next : State) : Prop where
 notAgain : state.enters next → state.active = []
 restored : ∀ frame older, event = .sigreturn → state.active = frame :: older →
  next.user = frame
 onTime : event = .tick → state.active = [] → state.proc.alarmInterval > 0 →
  (state.enters next ↔ state.quiet + 1 = state.proc.alarmInterval)

/-! ### Runs -/

/-- What holds in a run whose handlers keep to `avoids`. -/
structure Consistent (state : State) : Prop where
 waiting : state.active = [] → state.proc.inAlarmHandler = false
 single : ∀ frame older, state.active = frame :: older →
  older = [] ∧ state.proc.alarmTf = frame ∧
   (state.proc.inAlarmHandler = true ∨ state.proc.alarmInterval ≤ 0)
 counted : state.proc.alarmInterval > 0 →
  state.quiet = state.proc.ticksSinceAlarm ∧ state.quiet < state.proc.alarmInterval

theorem Initial.consistent {state : State} (initial : state.Initial) : state.Consistent where
 waiting _ := initial.inAlarmHandler
 single frame older same := by cases initial.active.symm.trans same
 counted positive := by
  rw [initial.alarmInterval] at positive
  exact absurd positive (Int.lt_irrefl 0)

variable {state : State} {event : Event}

theorem counts_iff {proc : Proc} :
 proc.counts = true ↔ proc.alarmInterval > 0 ∧ proc.inAlarmHandler = false := by
 simp [Proc.counts]

section

variable (consistent : state.Consistent)
include consistent

theorem Consistent.idle (counts : state.trap.counts = true) : state.active = [] := by
 obtain ⟨positive, waits⟩ := counts_iff.mp counts
 cases active : state.active with
 | nil => rfl
 | cons frame older =>
  obtain ⟨-, -, busy | off⟩ := consistent.single frame older active
  · cases waits.symm.trans busy
  · exact absurd positive (Int.not_lt.mpr off)

theorem Consistent.tick_goesOff (off : state.trap.goesOff = true) :
 (state.step .tick).Consistent := by
 obtain ⟨counts, -⟩ := and_eq_true_iff.mp off
 have idle := consistent.idle counts
 have positive := (counts_iff.mp counts).1
 simp only [step, back, Proc.timer, if_pos off, idle]
 refine ⟨fun empty => absurd empty (cons_ne_nil _ _), ?_, fun _ => ⟨rfl, positive⟩⟩
 intro frame older same
 cases same
 exact ⟨rfl, rfl, .inl rfl⟩

theorem Consistent.tick_counts (quiet : state.trap.goesOff = false)
 (counts : state.trap.counts = true) : (state.step .tick).Consistent := by
 have idle := consistent.idle counts
 obtain ⟨positive, waits⟩ := counts_iff.mp counts
 have early : ¬ state.trap.ticksSinceAlarm + 1 ≥ state.trap.alarmInterval := by
  intro late
  rw [Proc.goesOff, counts, decide_eq_true late] at quiet
  cases quiet
 obtain ⟨same, -⟩ := consistent.counted positive
 simp only [step, back, Proc.timer, quiet, false_eq_true, if_false, if_pos counts, idle,
  isEmpty_nil, if_true]
 refine ⟨fun _ => waits, fun frame older same => (by cases same), fun _ => ?_⟩
 exact ⟨congrArg (· + 1) same, by rw [same]; exact Int.not_le.mp early⟩

theorem Consistent.tick_ignored (ignored : state.trap.counts = false) :
 (state.step .tick).Consistent := by
 have quiet : state.trap.goesOff = false := by rw [Proc.goesOff, ignored, Bool.false_and]
 simp only [step, back, Proc.timer, quiet, ignored, Bool.false_eq_true, if_false]
 split
 · rename_i empty
   have idle := isEmpty_iff.mp empty
   have waits := consistent.waiting idle
   refine ⟨fun _ => waits, fun frame older same => (by cases idle.symm.trans same), ?_⟩
   intro positive
   rw [counts_iff.mpr ⟨positive, waits⟩] at ignored
   cases ignored
 · exact ⟨consistent.waiting, consistent.single, consistent.counted⟩

theorem Consistent.step (permits : state.permits event) (avoids : state.avoids event) :
 (state.step event).Consistent := by
 cases event with
 | run user => exact ⟨consistent.waiting, consistent.single, consistent.counted⟩
 | tick =>
  cases off : state.trap.goesOff with
  | true => exact consistent.tick_goesOff off
  | false =>
   cases counts : state.trap.counts with
   | true => exact consistent.tick_counts off counts
   | false => exact consistent.tick_ignored counts
 | sigalarm =>
  refine ⟨fun _ => rfl, ?_, fun positive => ⟨rfl, positive⟩⟩
  intro frame older same
  obtain ⟨alone, saved, -⟩ := consistent.single frame older same
  have turnedOff := avoids.resolve_left fun idle => by cases idle.symm.trans same
  exact ⟨alone, saved, .inr turnedOff⟩
 | sigreturn =>
  obtain ⟨frame, older, active⟩ := exists_cons_of_ne_nil permits
  obtain ⟨alone, -, -⟩ := consistent.single frame older active
  refine ⟨fun _ => rfl, ?_, consistent.counted⟩
  intro other rest same
  change state.active.tail = other :: rest at same
  rw [active, alone] at same
  cases same
 | syscall result => exact ⟨consistent.waiting, consistent.single, consistent.counted⟩

end

theorem tick_active (quiet : state.trap.goesOff = false) :
 (state.step .tick).active = state.active := by
 simp only [State.step, back, quiet, false_eq_true, if_false]
 split <;> rfl

theorem Consistent.transparent (consistent : state.Consistent) (avoids : state.avoids event) :
 state.Transparent event (state.step event) where
 notAgain enters := by
  have longer := congrArg length enters
  cases event with
  | tick =>
   cases off : state.trap.goesOff with
   | true => exact consistent.idle (Bool.and_eq_true_iff.mp off).1
   | false =>
    rw [tick_active off, length_cons] at longer
    omega
  | sigreturn =>
   change state.active.tail.length = _ at longer
   simp_all
  | run user => exact absurd longer (Nat.ne_of_lt (Nat.lt_succ_self _))
  | sigalarm => exact absurd longer (Nat.ne_of_lt (Nat.lt_succ_self _))
  | syscall result => exact absurd longer (Nat.ne_of_lt (Nat.lt_succ_self _))
 restored frame older isReturn active := by
  subst isReturn
  obtain ⟨-, saved, -⟩ := consistent.single frame older active
  have zero : frame.reg .a0 = 0 := saved ▸ avoids
  change state.proc.alarmTf.setA0 0 = frame
  rw [saved]
  have registers : (frame.setA0 0).reg = frame.reg := by
   funext register
   unfold Trapframe.setA0
   dsimp only
   split
   · rename_i same
     rw [same, zero]
   · rfl
  exact congrArg (Trapframe.mk frame.epc) registers
 onTime isTick idle positive := by
  subst isTick
  obtain ⟨same, early⟩ := consistent.counted positive
  have counts := counts_iff.mpr ⟨positive, consistent.waiting idle⟩
  have goesOff : state.trap.goesOff = true ↔ state.quiet + 1 = state.proc.alarmInterval := by
   have value : state.trap.goesOff =
    decide (state.proc.ticksSinceAlarm + 1 ≥ state.proc.alarmInterval) := by
    rw [Proc.goesOff, show state.trap.counts = true from counts, Bool.true_and]
    rfl
   rw [value, decide_eq_true_iff]
   omega
  rw [← goesOff]
  constructor
  · intro enters
    cases off : state.trap.goesOff with
    | true => rfl
    | false =>
     have longer := congrArg length enters
     rw [tick_active off, length_cons] at longer
     omega
  · intro off
    unfold enters State.step
    rw [if_pos off]

/-- A run in which handlers keep to `avoids` is transparent in all its steps. -/
theorem alarm_transparent {start : State} {events : List Event} (initial : start.Initial)
 (run : Run (Guarded (fun state event => state.permits event ∧ state.avoids event) takes)
  start events state)
 (avoids : state.avoids event) : state.Transparent event (state.step event) := by
 have consistent : state.Consistent := by
  refine run.invariant initial.consistent ?_
  rintro before event after consistent ⟨⟨permits, avoids⟩, rfl⟩
  exact consistent.step permits avoids
 exact consistent.transparent avoids

/-- A process that is about to call `sigalarm(1, 100)`. -/
def asking : Trapframe where
 epc := 0
 reg register := match register with
  | .a0 => 1
  | .a1 => 100
  | _ => 0

def asks : State where
 proc :=
  { trapframe := asking
    alarmInterval := 0
    alarmHandler := 0
    ticksSinceAlarm := 0
    alarmTf := asking
    inAlarmHandler := false }
 user := asking
 active := []
 quiet := 0

theorem asks_initial : asks.Initial := ⟨rfl, rfl, rfl⟩

theorem alarm_transparent_once :
 ((asks.step .sigalarm).step .tick).Transparent .sigreturn
  (((asks.step .sigalarm).step .tick).step .sigreturn) := by
 have run : Run (Guarded (fun state event => state.permits event ∧ state.avoids event) takes)
  asks ([] ++ [.sigalarm] ++ [.tick]) ((asks.step .sigalarm).step .tick) :=
  .snoc (.snoc .nil ⟨⟨trivial, .inl rfl⟩, rfl⟩) ⟨⟨trivial, trivial⟩, rfl⟩
 exact alarm_transparent asks_initial run (by change (0 : UInt64) = 0; rfl)

def computing : Trapframe := ⟨40, fun _ => 7⟩

/-- `sigreturn` returns zero in `a0`, and a handler that sets an alarm is entered again. -/
theorem alarm_not_transparent :
 (∃ events state, Run (Guarded permits takes) asks events state ∧ state.permits .sigreturn ∧
  ¬ state.Transparent .sigreturn (state.step .sigreturn)) ∧
 ∃ events state, Run (Guarded permits takes) asks events state ∧
  ¬ state.Transparent .tick (state.step .tick) := by
 constructor
 · have run : Run (Guarded permits takes) asks
    ([] ++ [.sigalarm] ++ [.run computing] ++ [.tick])
    (((asks.step .sigalarm).step (.run computing)).step .tick) :=
    .snoc (.snoc (.snoc .nil ⟨trivial, rfl⟩) ⟨trivial, rfl⟩) ⟨trivial, rfl⟩
   refine ⟨_, _, run, cons_ne_nil _ _, ?_⟩
   intro transparent
   have restored := transparent.restored computing [] rfl rfl
   have a0 := congrArg (fun frame : Trapframe => frame.reg .a0) restored
   revert a0
   decide
 · have run : Run (Guarded permits takes) asks
    ([] ++ [.sigalarm] ++ [.tick] ++ [.run asking] ++ [.sigalarm])
    ((((asks.step .sigalarm).step .tick).step (.run asking)).step .sigalarm) :=
    .snoc (.snoc (.snoc (.snoc .nil ⟨trivial, rfl⟩) ⟨trivial, rfl⟩) ⟨trivial, rfl⟩)
     ⟨trivial, rfl⟩
   refine ⟨_, _, run, ?_⟩
   intro transparent
   exact absurd (transparent.notAgain rfl) (cons_ne_nil _ _)

end State

end MyNotes.Xv6.Alarm
