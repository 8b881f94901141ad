/-
Computations that stop at the first fault.

A computation that has returned has passed through each of its steps.  A rule says at once which
faults a computation may stop at and what holds of its result.
-/

import Mathlib.Data.List.FinRange

namespace MyNotes.Library.Fallible

open List

variable {Fault α β : Type*}

theorem of_bind {first : Except Fault α} {rest : α → Except Fault β} {result : β}
 (done : first.bind rest = .ok result) :
 ∃ middle, first = .ok middle ∧ rest middle = .ok result := by
 cases first with
 | error fault => cases done
 | ok middle => exact ⟨middle, rfl, done⟩

theorem of_map {first : Except Fault α} {rest : α → β} {result : β}
 (done : first.map rest = .ok result) : ∃ middle, first = .ok middle ∧ rest middle = result := by
 cases first with
 | error fault => cases done
 | ok middle => exact ⟨middle, rfl, Except.ok.inj done⟩

/-! ### What a computation comes to -/

variable {σ ι : Type*} {allowed : Fault → Prop} {run : Except Fault α}

/-- The computation stops only where a fault is allowed, and what it returns is so. -/
def Outcome (allowed : Fault → Prop) (run : Except Fault α) (post : α → Prop) : Prop :=
 (∀ fault, run = .error fault → allowed fault) ∧ ∀ result, run = .ok result → post result

variable {post : α → Prop}

theorem Outcome.returned {value : α} (holds : post value) :
 Outcome allowed (.ok value : Except Fault α) post := by
 constructor
 · intro fault stopped
   cases stopped
 · simp_all

theorem Outcome.stopped {fault : Fault} (may : allowed fault) :
 Outcome allowed (.error fault) post := by
 constructor
 · rintro _ ⟨⟩
   exact may
 · intro result returned
   cases returned

theorem Outcome.mono {post' : α → Prop} (outcome : Outcome allowed run post)
 (weaker : ∀ result, post result → post' result) : Outcome allowed run post' :=
 ⟨outcome.1, fun result returned => weaker result (outcome.2 result returned)⟩

theorem Outcome.exists_ok (outcome : Outcome allowed run post) (never : ∀ fault, ¬ allowed fault) :
 ∃ result, run = .ok result := by
 cases run with
 | error fault => exact absurd (outcome.1 fault rfl) (never fault)
 | ok result => exact ⟨result, rfl⟩

theorem Outcome.bind {rest : α → Except Fault β} {middle : α → Prop} {post : β → Prop}
 (first : Outcome allowed run middle)
 (second : ∀ value, middle value → Outcome allowed (rest value) post) :
 Outcome allowed (run.bind rest) post := by
 cases run with
 | error fault => exact Outcome.stopped (first.1 fault rfl)
 | ok value => exact second value (first.2 value rfl)

theorem Outcome.map {change : α → β} {middle : α → Prop} {post : β → Prop}
 (first : Outcome allowed run middle) (second : ∀ value, middle value → post (change value)) :
 Outcome allowed (run.map change) post := by
 cases run with
 | error fault => exact Outcome.stopped (first.1 fault rfl)
 | ok value => exact Outcome.returned (second value (first.2 value rfl))

variable {state : σ}

theorem Outcome.foldlM_from {body : σ → ι → Except Fault σ} {holds : List ι → σ → Prop}
 {items : List ι}
 (step : ∀ done item rest state, items = done ++ item :: rest → holds done state →
  Outcome allowed (body state item) (holds (done ++ [item]))) {rest done : List ι}
 (parts : items = done ++ rest) (start : holds done state) :
 Outcome allowed (rest.foldlM body state) (holds items) := by
 induction rest generalizing done state with
 | nil =>
  rw [parts, append_nil]
  exact Outcome.returned start
 | cons item rest ih =>
  rw [foldlM_cons]
  apply (step done item rest state parts start).bind
  grind

theorem Outcome.foldlM {body : σ → ι → Except Fault σ} (holds : List ι → σ → Prop) {items : List ι}
 (start : holds [] state)
 (step : ∀ done item rest state, items = done ++ item :: rest → holds done state →
  Outcome allowed (body state item) (holds (done ++ [item]))) :
 Outcome allowed (items.foldlM body state) (holds items) :=
 Outcome.foldlM_from step rfl start

theorem Outcome.finRange {n : ℕ} {body : σ → Fin n → Except Fault σ}
 (holds : (Fin n → Prop) → σ → Prop) (start : holds (fun _ => False) state)
 (step : ∀ done item state, ¬ done item → holds done state →
  Outcome allowed (body state item) (holds fun other => done other ∨ other = item)) :
 Outcome allowed ((List.finRange n).foldlM body state) (holds fun _ => True) := by
 have all : (fun other => other ∈ List.finRange n) = fun _ => True :=
  funext fun other => eq_true (mem_finRange other)
 rw [← all]
 apply Outcome.foldlM fun done => holds fun other => other ∈ done
 · simpa only [not_mem_nil] using start
 · intro done item rest state parts kept
   have apart : (done ++ item :: rest).Nodup := parts ▸ nodup_finRange n
   have new : item ∉ done := (nodup_cons.mp (nodup_middle.mp apart)).1 ∘
    mem_append_left rest
   simp_all

end MyNotes.Library.Fallible
