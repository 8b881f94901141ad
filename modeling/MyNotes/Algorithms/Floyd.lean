/-
All shortest paths by Floyd, of the algorithm notes.

A round of the outer loop changes the matrices in place.  The row and the column of its vertex stay
as they are, so the round comes to one change of all entries at once.
-/

import MyNotes.Algorithms.AdjacencyMatrix
import MyNotes.Library.CheckedInt

namespace MyNotes.Algorithms.Floyd

open AdjacencyMatrix Library.CheckedInt Library.Fallible Library.WeightedWalk

variable {n : ℕ}

/-- `D` has the lengths and `P` the vertex that a path goes to first. -/
structure Paths (n : ℕ) where
 D : Fin n → Fin n → ℤ
 P : Fin n → Fin n → Fin n

def relax (k v : Fin n) (s : Paths n) (w : Fin n) : Except Fault (Paths n) :=
 (toInt (s.D v k + s.D k w)).map fun length =>
  if s.D v w > length then ⟨put s.D v w length, put s.P v w (s.P v k)⟩ else s

def round (s : Paths n) (k : Fin n) : Except Fault (Paths n) :=
 (List.finRange n).foldlM (fun s v => (List.finRange n).foldlM (relax k v) s) s

def shortestPath_Floyd (ma : Fin n → Fin n → ℤ) : Except Fault (Paths n) :=
 (List.finRange n).foldlM round ⟨ma, fun _ w => w⟩

/-- The vertices that the loop of the output prints on the way to `j`, in at most so many
rounds. -/
def printLoop (P : Fin n → Fin n → Fin n) (j : Fin n) : ℕ → Fin n → Option (List (Fin n))
 | 0, _ => none
 | rounds + 1, k =>
  if k = j then some [j] else (printLoop P j rounds (P k j)).map fun path => k :: path

/-- What is printed after `i` for the path to `j`. -/
def printPath (P : Fin n → Fin n → Fin n) (rounds : ℕ) (i j : Fin n) : Option (List (Fin n)) :=
 printLoop P j rounds (P i j)

/-! ### One round -/

def Shorter (s : Paths n) (k v w : Fin n) : Prop := s.D v k + s.D k w < s.D v w

instance (s : Paths n) (k v w : Fin n) : Decidable (Shorter s k v w) :=
 inferInstanceAs (Decidable (_ < _))

/-- All paths over that vertex that are shorter taken at once. -/
def via (s : Paths n) (k : Fin n) : Paths n where
 D v w := if Shorter s k v w then s.D v k + s.D k w else s.D v w
 P v w := if Shorter s k v w then s.P v k else s.P v w

variable {s now : Paths n} {k v w : Fin n} {allowed : Fault → Prop}

/-- The pairs that a round has been at have their new entries, the others their old ones. -/
def Partly (s : Paths n) (k : Fin n) (done : Fin n → Fin n → Prop) (now : Paths n) : Prop :=
 ∀ v w, (done v w → now.D v w = (via s k).D v w ∧ now.P v w = (via s k).P v w) ∧
  (¬ done v w → now.D v w = s.D v w ∧ now.P v w = s.P v w)

def Plain (s : Paths n) : Prop := ∀ v, s.D v v = 0

theorem not_shorter_from (plain : Plain s) (k w : Fin n) : ¬ Shorter s k k w := by
 have zero := plain k
 unfold Shorter
 omega

theorem not_shorter_to (plain : Plain s) (k v : Fin n) : ¬ Shorter s k v k := by
 have zero := plain k
 unfold Shorter
 omega

theorem via_of_shorter (shorter : Shorter s k v w) :
 (via s k).D v w = s.D v k + s.D k w ∧ (via s k).P v w = s.P v k :=
 ⟨if_pos shorter, if_pos shorter⟩

theorem via_of_not_shorter (other : ¬ Shorter s k v w) :
 (via s k).D v w = s.D v w ∧ (via s k).P v w = s.P v w :=
 ⟨if_neg other, if_neg other⟩

theorem Partly.keeps {done : Fin n → Fin n → Prop} (partly : Partly s k done now)
 (other : ¬ Shorter s k v w) : now.D v w = s.D v w ∧ now.P v w = s.P v w := by
 by_cases reached : done v w
 · rw [← (via_of_not_shorter other).1, ← (via_of_not_shorter other).2]
   exact (partly v w).1 reached
 · exact (partly v w).2 reached

/-- A fault is allowed where a sum of two entries does not fit. -/
def Allows (s : Paths n) (allowed : Fault → Prop) : Prop :=
 ∀ v k w, ¬ Fits (s.D v k + s.D k w) → allowed .overflow

theorem relax_outcome {done : Fin n → Fin n → Prop} (plain : Plain s) (allows : Allows s allowed)
 (partly : Partly s k done now) (new : ¬ done v w) :
 Outcome allowed (relax k v now w) (Partly s k fun v' w' => done v' w' ∨ v' = v ∧ w' = w) := by
 have column := partly.keeps (not_shorter_to plain k v)
 have row := partly.keeps (not_shorter_from plain k w)
 have entry := (partly v w).2 new
 rw [relax, column.1, row.1, column.2, entry.1]
 apply (toInt_outcome (allows v k w)).map
 rintro _ ⟨rfl, _⟩ v' w'
 have old := partly v' w'
 by_cases here : v' = v ∧ w' = w
 · obtain ⟨rfl, rfl⟩ := here
   by_cases shorter : Shorter s k v' w'
   · rw [if_pos (show s.D v' w' > s.D v' k + s.D k w' from shorter)]
     simp [put, via_of_shorter shorter]
   · rw [if_neg (show ¬ s.D v' w' > s.D v' k + s.D k w' from shorter)]
     simp [via_of_not_shorter shorter, entry]
 · split
   · simpa [put, here] using old
   · simpa [here] using old

theorem row_outcome {rows : Fin n → Prop} (plain : Plain s) (allows : Allows s allowed)
 (fresh : ¬ rows v) (partly : Partly s k (fun v' _ => rows v') now) :
 Outcome allowed ((List.finRange n).foldlM (relax k v) now)
  (Partly s k fun v' _ => rows v' ∨ v' = v) := by
 have columns : Outcome allowed ((List.finRange n).foldlM (relax k v) now)
  (Partly s k fun v' _ => rows v' ∨ v' = v ∧ True) := by
  apply Outcome.finRange fun columns => Partly s k fun v' w => rows v' ∨ v' = v ∧ columns w
  · simpa using partly
  · intro columns w now new partly
    have next := relax_outcome plain allows partly (w := w) (by tauto)
    grind
 simpa only [and_true] using columns

theorem round_outcome (plain : Plain s) (allows : Allows s allowed) (k : Fin n) :
 Outcome allowed (round s k) (fun now => now = via s k) := by
 have rows : Outcome allowed (round s k) (Partly s k fun _ _ => True) := by
  apply Outcome.finRange fun rows => Partly s k fun v _ => rows v
  · intro v w
    exact ⟨False.elim, fun _ => ⟨rfl, rfl⟩⟩
  · intro rows v now fresh partly
    exact row_outcome plain allows fresh partly
 apply rows.mono
 intro now partly
 have lengths : now.D = (via s k).D := by
  funext v w
  exact ((partly v w).1 trivial).1
 have hops : now.P = (via s k).P := by
  funext v w
  exact ((partly v w).1 trivial).2
 cases now
 exact Paths.mk.injEq .. ▸ ⟨lengths, hops⟩

/-! ### Shortest paths -/

variable {ma : Fin n → Fin n → ℤ} {INF cost : ℤ} {done : Fin n → Prop}

/-- The way that `P` gives from a vertex to `w`: each vertex on it but the first and the last is one
that a round has been made for, and the edges add up to the entries of `D`. -/
inductive Route (ma : Fin n → Fin n → ℤ) (INF : ℤ) (done : Fin n → Prop) (s : Paths n) (w : Fin n) :
 Fin n → Prop
 | arrived : Route ma INF done s w w
 | hop {v : Fin n} {cost : ℤ} : v ≠ w → edge ma INF v (s.P v w) cost →
  (s.P v w = w ∨ done (s.P v w)) → s.D v w = cost + s.D (s.P v w) w →
  Route ma INF done s w (s.P v w) → Route ma INF done s w v

/-- What holds when the rounds of these vertices are over. -/
structure Stage (ma : Fin n → Fin n → ℤ) (INF : ℤ) (done : Fin n → Prop) (s : Paths n) : Prop where
 plain : Plain s
 nonneg : ∀ v w, 0 ≤ s.D v w
 atMost : ∀ v w, s.D v w ≤ INF
 direct : ∀ v w, s.D v w ≤ ma v w
 detour : ∀ x, done x → ∀ v w, s.D v w ≤ s.D v x + s.D x w
 route : ∀ v w, s.D v w < INF → Route ma INF done s w v

theorem Stage.initial (network : Network ma INF) :
 Stage ma INF (fun _ => False) ⟨ma, fun _ w => w⟩ where
 plain := network.diagonal
 nonneg := network.nonneg
 atMost := network.atMost
 direct v w := Int.le_refl _
 detour _ := False.elim
 route v w short := by
  by_cases same : v = w
  · subst same
    exact .arrived
  · have zero := network.diagonal w
    have length : ma v w = ma v w + ma w w := by omega
    exact .hop same ⟨same, Int.ne_of_lt short, rfl⟩ (.inl rfl) length .arrived

theorem Shorter.entry (shorter : Shorter s k v w) : (via s k).D v w = s.D v k + s.D k w :=
 (via_of_shorter shorter).1

theorem Stage.via_le (s : Paths n) (k v w : Fin n) :
 (via s k).D v w ≤ s.D v w ∧ (via s k).D v w ≤ s.D v k + s.D k w := by
 by_cases shorter : Shorter s k v w
 · rw [shorter.entry]
   unfold Shorter at shorter
   omega
 · rw [(via_of_not_shorter shorter).1]
   unfold Shorter at shorter
   omega

theorem Stage.via_cases (s : Paths n) (k v w : Fin n) :
 (via s k).D v w = s.D v w ∨ (via s k).D v w = s.D v k + s.D k w := by
 by_cases shorter : Shorter s k v w
 · exact .inr shorter.entry
 · exact .inl (via_of_not_shorter shorter).1

section

variable (stage : Stage ma INF done s)
include stage

theorem Stage.not_shorter_self (k v : Fin n) : ¬ Shorter s k v v := by
 have zero := stage.plain v
 have there := stage.nonneg v k
 have back := stage.nonneg k v
 unfold Shorter
 omega

theorem Route.keep (route : Route ma INF done s w v) (other : ¬ Shorter s k v w) :
 Route ma INF (fun x => done x ∨ x = k) (via s k) w v := by
 induction route with
 | arrived => exact .arrived
 | @hop v cost apart along between length _ ih =>
  have entry := via_of_not_shorter other
  -- A shorter way from the next vertex would be one from here too.
  have next : ¬ Shorter s k (s.P v w) w := by
   intro shorter
   rcases between with last | inside
   · rw [last] at shorter
     exact stage.not_shorter_self k w shorter
   · have ahead := stage.detour _ inside v k
     have first := stage.direct v (s.P v w)
     rw [← along.2.2] at first
     unfold Shorter at shorter other
     omega
  have rest := ih next
  rw [← entry.2] at along between rest
  refine .hop apart along (between.imp_right .inl) ?_ rest
  rw [entry.1, entry.2, (via_of_not_shorter next).1]
  exact length

theorem Route.through (onward : Route ma INF done s w k) (route : Route ma INF done s k v)
 (shorter : Shorter s k v w) : Route ma INF (fun x => done x ∨ x = k) (via s k) w v := by
 induction route with
 | arrived => exact absurd shorter (not_shorter_from stage.plain k w)
 | @hop v cost apart along between length _ ih =>
  have entry := via_of_shorter shorter
  have zero := stage.plain k
  have apart' : v ≠ w := by
   rintro rfl
   exact stage.not_shorter_self k v shorter
  by_cases last : s.P v k = k
  · have rest := onward.keep (k := k) stage (not_shorter_from stage.plain k w)
    rw [last] at along length
    have hop : (via s k).P v w = k := entry.2.trans last
    rw [← hop] at along
    refine .hop apart' along (.inr (.inr hop)) ?_ (by rw [hop]; exact rest)
    rw [entry.1, hop, (via_of_not_shorter (not_shorter_from stage.plain k w)).1]
    omega
  · have inside := between.resolve_left last
    have next : Shorter s k (s.P v k) w := by
     have ahead := stage.detour _ inside v w
     have first := stage.direct v (s.P v k)
     rw [← along.2.2] at first
     unfold Shorter at shorter ⊢
     omega
    have rest := ih next
    rw [← entry.2] at along inside rest
    refine .hop apart' along (.inr (.inl inside)) ?_ rest
    rw [entry.1, entry.2, next.entry]
    omega

theorem Stage.via (k : Fin n) : Stage ma INF (fun x => done x ∨ x = k) (via s k) where
 plain v := (via_of_not_shorter (stage.not_shorter_self k v)).1.trans (stage.plain v)
 nonneg v w := by
  have direct := stage.nonneg v w
  have left := stage.nonneg v k
  have right := stage.nonneg k w
  have entry := via_cases s k v w
  omega
 atMost v w := Int.le_trans (via_le s k v w).1 (stage.atMost v w)
 direct v w := Int.le_trans (via_le s k v w).1 (stage.direct v w)
 detour x reached v w := by
  rcases reached with before | rfl
  · have left := stage.nonneg k x
    have right := stage.nonneg x k
    have direct := stage.detour x before v w
    have ahead := stage.detour x before v k
    have onward := stage.detour x before k w
    have entry := via_le s k v w
    rcases via_cases s k v x with front | front <;> rcases via_cases s k x w with back | back <;>
     omega
  · rw [(via_of_not_shorter (not_shorter_to stage.plain x v)).1,
     (via_of_not_shorter (not_shorter_from stage.plain x w)).1]
    exact (via_le s x v w).2
 route v w short := by
  by_cases shorter : Shorter s k v w
  · rw [shorter.entry] at short
    have left := stage.nonneg v k
    have right := stage.nonneg k w
    have ahead := stage.route v k (by omega)
    have onward := stage.route k w (by omega)
    exact onward.through stage ahead shorter
  · rw [(via_of_not_shorter shorter).1] at short
    exact (stage.route v w short).keep stage shorter

end

theorem shortestPath_Floyd_outcome (network : Network ma INF) :
 Outcome (fun _ => intMax < 2 * INF) (shortestPath_Floyd ma) (Stage ma INF fun _ => True) := by
 apply Outcome.finRange fun rounds s => Stage ma INF rounds s
 · exact Stage.initial network
 · intro rounds k s _ stage
   have allows : Allows s fun _ => intMax < 2 * INF := by
    intro v k w outside
    have first := stage.atMost v k
    have second := stage.atMost k w
    have left := stage.nonneg v k
    have right := stage.nonneg k w
    unfold Fits at outside
    omega
   apply (round_outcome stage.plain allows k).mono
   rintro _ rfl
   exact stage.via k

/-! ### The printed paths -/

/-- The first vertices after `v` of the sequence `P[v][w]`, `P[P[v][w]][w]`, and so on. -/
def hops (P : Fin n → Fin n → Fin n) (w : Fin n) : ℕ → Fin n → List (Fin n)
 | 0, _ => []
 | count + 1, v => P v w :: hops P w count (P v w)

theorem Route.exists_walk (plain : Plain s) (route : Route ma INF done s w v) :
 ∃ count, (v = w → count = 0) ∧ Walk (edge ma INF) v w (hops s.P w count v) (s.D v w) ∧
  (v ≠ w → printPath s.P count v w = some (hops s.P w count v)) := by
 induction route with
 | arrived =>
  have zero := plain w
  exact ⟨0, fun _ => rfl, by rw [zero]; exact .here w, absurd rfl⟩
 | @hop v cost apart along _ length _ ih =>
  obtain ⟨count, atEnd, walk, printed⟩ := ih
  refine ⟨count + 1, fun same => absurd same apart, ?_, fun _ => ?_⟩
  · rw [length]
    exact .step along walk
  · rw [printPath, printLoop]
    split
    · rename_i last
      rw [atEnd last, hops, hops, last]
    · rename_i further
      change (printPath s.P count (s.P v w) w).map _ = _
      rw [printed further]
      rfl

theorem Stage.le_length (stage : Stage ma INF (fun _ => True) s) {rest : List (Fin n)} {length : ℤ}
 (walk : Walk (edge ma INF) v w rest length) : s.D v w ≤ length := by
 have grows := walk.le_add (s.D v) fun x y cost along => by
  have ahead := stage.detour x trivial v y
  have direct := stage.direct x y
  rw [along.2.2]
  omega
 have zero := stage.plain v
 omega

/-- With a value for missing edges that is larger than the length of every path, `D` has the
distances, and the sequence that is printed is a shortest path; the sums fit where twice that value
does. -/
theorem shortestPath_Floyd_correct (network : Network ma INF) :
 (2 * INF ≤ intMax → ∃ final, shortestPath_Floyd ma = .ok final) ∧
 ∀ final, shortestPath_Floyd ma = .ok final → ∀ v w,
  Distance (edge ma INF) INF v w (final.D v w) ∧
  (Reaches (edge ma INF) v w →
   ∃ count, Walk (edge ma INF) v w (hops final.P w count v) (final.D v w) ∧
    (v ≠ w → printPath final.P count v w = some (hops final.P w count v))) := by
 have outcome := shortestPath_Floyd_outcome network
 constructor
 · intro small
   exact outcome.exists_ok fun _ large => Int.not_lt.mpr small large
 · intro final returned v w
   have stage := outcome.2 final returned
   have way := fun short => (stage.route v w short).exists_walk stage.plain
   have distance : Distance (edge ma INF) INF v w (final.D v w) := by
    apply network.distance (fun _ _ _ => id) (stage.atMost v w) fun _ _ => stage.le_length
    intro short
    obtain ⟨count, _, walk, _⟩ := way short
    exact ⟨_, walk⟩
   refine ⟨distance, fun reaches => ?_⟩
   obtain ⟨count, _, walk, printed⟩ := way (network.lt_of_reaches distance reaches)
   exact ⟨count, walk, printed⟩

theorem detour_apart : ¬ Reaches (edge detour 20) 2 0 := by
 rintro ⟨rest, length, walk⟩
 cases walk with
 | step along => simpa using detour_edge along

theorem detour_walk {rest : List (Fin 3)} {length : ℤ}
 (walk : Walk (edge detour 20) 0 2 rest length) (short : length = 5) : rest = [1, 2] := by
 cases walk with
 | step along walk =>
  have positive := walk.nonneg detour_network.edge_nonneg
  obtain ⟨-, rfl, rfl⟩ | ⟨-, rfl, rfl⟩ | ⟨isOne, -⟩ := detour_edge along
  · cases walk with
    | step along walk =>
     obtain ⟨isZero, -⟩ | ⟨isZero, -⟩ | ⟨-, rfl, rfl⟩ := detour_edge along
     · cases isZero
     · cases isZero
     · cases walk with
       | here => rfl
       | step along => exact absurd (detour_edge along) (by simp)
  · omega
  · cases isOne

theorem shortestPath_Floyd_detour :
 ∃ final, shortestPath_Floyd detour = .ok final ∧ final.D 0 2 = 5 ∧ final.D 2 0 = 20 ∧
  ∃ count, printPath final.P count 0 2 = some [1, 2] := by
 have correct := shortestPath_Floyd_correct detour_network
 obtain ⟨final, returned⟩ := correct.1 (by decide)
 have there := correct.2 final returned 0 2
 have short : final.D 0 2 = 5 := there.1.eq (.inl detour_shortest)
 obtain ⟨count, walk, printed⟩ := there.2 (detour_shortest.1.imp fun _ walk => ⟨5, walk⟩)
 rw [detour_walk walk short] at printed
 exact ⟨final, returned, short, (correct.2 final returned 2 0).1.eq (.inr ⟨detour_apart, rfl⟩),
  count, printed (by decide)⟩

end MyNotes.Algorithms.Floyd
