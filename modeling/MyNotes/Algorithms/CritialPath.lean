/-
The critical edges of an activity network, of the critical path notes.

The latest times are computed back from the earliest time of the vertex with the last number.  So
they are right where that vertex is the sink, and no critical edge is found where it is not.
-/

import MyNotes.Algorithms.TopologicalSort

namespace MyNotes.Algorithms.CritialPath

open TopologicalSort Library.CheckedInt Library.Fallible Library.WeightedWalk Function List Outcome

variable {n : ℕ}

/-- The body of the loop over the edges of a vertex that brings `ltv` up to date. -/
def latest (gettop : Fin n) (ltv : Fin n → ℤ) (p : EdgeNode n) : Except Fault (Fin n → ℤ) :=
 (toInt (ltv p.adjvex - p.w)).map fun time =>
  if time < ltv gettop then update ltv gettop time else ltv

def latestLoop (G : GraphAdjList n) (ltv : Fin n → ℤ) (gettop : Fin n) :
 Except Fault (Fin n → ℤ) :=
 (G.adjlist gettop).fristedge.foldlM (latest gettop) ltv

/-- What the last loop works on, with the edges that it has printed. -/
structure Printing (n : ℕ) where
 ete : List ℤ
 lte : List ℤ
 idx : ℕ
 out : List (Fin n × EdgeNode n)

def printEdge (etv ltv : Fin n → ℤ) (i : Fin n) (s : Printing n) (p : EdgeNode n) :
 Except Fault (Printing n) :=
 (toInt (ltv p.adjvex - p.w)).bind fun late =>
  let ete := s.ete ++ [etv i]
  let lte := s.lte ++ [late]
  match ete[s.idx]?, lte[s.idx]? with
  | some early, some late =>
   .ok ⟨ete, lte, s.idx + 1, if early = late then s.out ++ [(i, p)] else s.out⟩
  | _, _ => .error .index

def printLoop (G : GraphAdjList n) (etv ltv : Fin n → ℤ) (s : Printing n) :
 Except Fault (Printing n) :=
 (List.finRange n).foldlM (fun s i => (G.adjlist i).fristedge.foldlM (printEdge etv ltv i) s) s

def critialPath (rounds : ℕ) (c : CritialPath (n + 1)) (G : GraphAdjList (n + 1)) :
 Except Fault (CritialPath (n + 1) × List (Fin (n + 1) × EdgeNode (n + 1))) :=
 (topologicalSort rounds c G).bind fun (_, c) =>
  (c.stk.foldlM (latestLoop G) fun _ => c.etv (Fin.last n)).bind fun ltv =>
   (printLoop G c.etv ltv ⟨c.ete, c.lte, 0, []⟩).map fun s =>
    ({ c with ltv := ltv, ete := s.ete, lte := s.lte, stk := [] }, s.out)

/-! ### The latest times -/

variable {G : GraphAdjList n} {source sink gettop v x : Fin n} {allowed : Fault → Prop}
variable {ltv now : Fin n → ℤ} {endTime : ℤ} {c : CritialPath n} {done : List (Fin n)}
variable {seen : List (EdgeNode n)} {p : EdgeNode n}

/-- The latest times of the vertices done come from a path to the sink. -/
structure Back (G : GraphAdjList n) (sink : Fin n) (endTime : ℤ) (done : List (Fin n))
 (ltv : Fin n → ℤ) : Prop where
 before : ∀ v, v ∉ done → ltv v = endTime
 way : ∀ v ∈ done, ∃ way, Walk (edge G) v sink way (endTime - ltv v)
 relaxed : ∀ v ∈ done, ∀ x cost, edge G v x cost → ltv v + cost ≤ ltv x

structure Visiting (ltv : Fin n → ℤ) (gettop : Fin n) (endTime : ℤ) (seen : List (EdgeNode n))
 (now : Fin n → ℤ) : Prop where
 others : ∀ v, v ≠ gettop → now v = ltv v
 atMost : now gettop ≤ endTime
 relaxed : ∀ p ∈ seen, now gettop + p.w ≤ ltv p.adjvex
 attained : now gettop = endTime ∨ ∃ p ∈ seen, now gettop + p.w = ltv p.adjvex

theorem latest_outcome (visiting : Visiting ltv gettop endTime seen now)
 (other : p.adjvex ≠ gettop) (fits : Fits (ltv p.adjvex - p.w)) :
 Outcome allowed (latest gettop now p) (Visiting ltv gettop endTime (seen ++ [p])) := by
 rw [latest, visiting.others p.adjvex other, toInt_eq fits]
 apply returned
 have atMost := visiting.atMost
 beta_reduce
 split
 · rename_i less
   constructor
   case others =>
    intro v apart
    rw [update_of_ne apart]
    exact visiting.others v apart
   case atMost =>
    rw [update_self]
    omega
   case relaxed =>
    intro q among
    rw [update_self]
    rcases mem_append.mp among with before | last
    · have old := visiting.relaxed q before
      omega
    · rw [mem_singleton.mp last]
      omega
   case attained =>
    simp
 · rename_i later
   constructor
   case others => exact visiting.others
   case atMost => exact atMost
   case relaxed =>
    intro q among
    rcases mem_append.mp among with before | last
    · exact visiting.relaxed q before
    · rw [mem_singleton.mp last]
      omega
   case attained =>
    rcases visiting.attained with first | ⟨q, among, same⟩
    · exact .inl first
    · grind

theorem Back.le (network : Network G source sink) (back : Back G sink endTime done ltv)
 (among : v ∈ done) : ltv v ≤ endTime := by
 obtain ⟨way, walk⟩ := back.way v among
 have positive := network.nonneg walk
 omega

variable {cost : ℤ}

section

variable (network : Network G source sink)
include network

theorem Back.fits (small : ∀ way length, Walk (edge G) source sink way length → length ≤ intMax)
 (back : Back G sink endTime done ltv) (start : 0 ≤ endTime) (atMost : endTime ≤ intMax)
 (along : edge G v x cost) (among : x ∈ done) : Fits (ltv x - cost) := by
 obtain ⟨way, walk⟩ := back.way x among
 have whole := network.fits small (.step along walk)
 have positive := network.nonneg walk
 have weight := network.positive v x cost along
 unfold Fits at whole ⊢
 unfold intMax at atMost whole ⊢
 omega

theorem Visiting.back (back : Back G sink endTime done ltv) (new : gettop ∉ done)
 (closed : ∀ v ∈ done ++ [gettop], ∀ x cost, edge G v x cost → x ∈ done)
 (visiting : Visiting ltv gettop endTime (G.adjlist gettop).fristedge now) :
 Back G sink endTime (done ++ [gettop]) now := by
 have old : ∀ v ∈ done, now v = ltv v := fun v among =>
  visiting.others v fun same => new (same ▸ among)
 have top : gettop ∈ done ++ [gettop] := mem_append_right done (mem_singleton_self _)
 constructor
 case before =>
  intro v out
  rw [mem_append, not_or, mem_singleton] at out
  rw [visiting.others v out.2]
  exact back.before v out.1
 case way =>
  intro v among
  rcases mem_append.mp among with before | last
  · rw [old v before]
    exact back.way v before
  · rw [mem_singleton.mp last]
    rcases visiting.attained with first | ⟨p, along, same⟩
    · have none : ∀ x cost, ¬ edge G gettop x cost := by
       intro x cost along
       have atMost := back.le network (closed gettop top x cost along)
       have less := visiting.relaxed ⟨x, cost⟩ along
       have weight := network.positive gettop x cost along
       dsimp only at less
       omega
      rw [(network.sink gettop).mp none] at first ⊢
      rw [first, Int.sub_self]
      exact ⟨[], .here sink⟩
    · obtain ⟨way, walk⟩ := back.way p.adjvex (closed gettop top p.adjvex p.w along)
      have length : endTime - now gettop = p.w + (endTime - ltv p.adjvex) := by omega
      rw [length]
      exact ⟨_, .step along walk⟩
 case relaxed =>
  intro v among x cost along
  have next := closed v among x cost along
  rw [old x next]
  rcases mem_append.mp among with before | last
  · rw [old v before]
    exact back.relaxed v before x cost along
  · rw [mem_singleton.mp last] at along ⊢
    exact visiting.relaxed ⟨x, cost⟩ along

theorem latestLoop_outcome
 (small : ∀ way length, Walk (edge G) source sink way length → length ≤ intMax)
 (back : Back G sink endTime done ltv) (start : 0 ≤ endTime) (atMost : endTime ≤ intMax)
 (new : gettop ∉ done) (closed : ∀ v ∈ done ++ [gettop], ∀ x cost, edge G v x cost → x ∈ done) :
 Outcome allowed (latestLoop G ltv gettop) (Back G sink endTime (done ++ [gettop])) := by
 have visited : Outcome allowed (latestLoop G ltv gettop)
  (Visiting ltv gettop endTime (G.adjlist gettop).fristedge) := by
  apply foldlM fun seen now => Visiting ltv gettop endTime seen now
  · have first := back.before gettop new
    exact ⟨fun _ _ => rfl, Int.le_of_eq first, fun p none => absurd none not_mem_nil,
     .inl first⟩
  · intro seen p rest now parts visiting
    have along : p ∈ (G.adjlist gettop).fristedge := by
     rw [parts]
     exact mem_append_right seen mem_cons_self
    have next := closed gettop (mem_append_right done (mem_singleton_self _))
     p.adjvex p.w along
    exact latest_outcome visiting (fun same => new (same ▸ next))
     (back.fits network small start atMost along next)
 apply visited.mono
 intro now visiting
 exact visiting.back network back new closed

end

theorem closed_of_sorted (sorted : Sorted G c) (every : ∀ v, v ∈ c.stk) {rest : List (Fin n)}
 (parts : c.stk = done ++ gettop :: rest) (among : v ∈ done ++ [gettop])
 (along : edge G v x cost) : x ∈ done := by
 have place := every x
 rw [parts, mem_append] at place
 refine place.resolve_right fun later => ?_
 obtain ⟨front, back, split⟩ := append_of_mem later
 have ordered := sorted.ordered
 rw [parts, split, ← append_assoc] at ordered
 have behind := ordered.preds along
 have inRest : v ∈ rest := by
  cases front with
  | nil =>
   simp_all
  | cons _ front =>
   simp_all
 have apart := sorted.nodup
 grind

theorem back_outcome (network : Network G source sink)
 (small : ∀ way length, Walk (edge G) source sink way length → length ≤ intMax)
 (sorted : Sorted G c) (every : ∀ v, v ∈ c.stk) (start : 0 ≤ endTime)
 (atMost : endTime ≤ intMax) :
 Outcome allowed (c.stk.foldlM (latestLoop G) fun _ => endTime)
  (Back G sink endTime c.stk) := by
 apply foldlM fun done ltv => Back G sink endTime done ltv
 · exact ⟨fun _ _ => rfl, fun v none => absurd none not_mem_nil,
    fun v none => absurd none not_mem_nil⟩
 · intro done gettop rest ltv parts back
   have apart := parts ▸ sorted.nodup
   have new : gettop ∉ done := (nodup_cons.mp (nodup_middle.mp apart)).1 ∘
    mem_append_left rest
   exact latestLoop_outcome network small back start atMost new fun v among x cost along =>
    closed_of_sorted sorted every parts among along

theorem Back.longest (back : Back G sink endTime done ltv) (every : ∀ v, v ∈ done)
 (atMost : ltv sink ≤ endTime) (v : Fin n) : Longest (edge G) v sink (endTime - ltv v) := by
 refine ⟨back.way v (every v), fun way length walk => ?_⟩
 have grows := walk.add_le ltv fun v x cost along => back.relaxed v (every v) x cost along
 omega

/-! ### The printed edges -/

def edges (G : GraphAdjList n) : List (Fin n × EdgeNode n) :=
 (List.finRange n).flatMap fun i => (G.adjlist i).fristedge.map fun p => (i, p)

/-- The earliest time of the edge is its latest time. -/
def onTime (etv ltv : Fin n → ℤ) (e : Fin n × EdgeNode n) : Bool :=
 etv e.1 = ltv e.2.adjvex - e.2.w

/-- The loop has printed the edges on time among these. -/
structure Printed (etv ltv : Fin n → ℤ) (done : List (Fin n × EdgeNode n)) (s : Printing n) :
 Prop where
 ete : s.ete.length = s.idx
 lte : s.lte.length = s.idx
 out : s.out = done.filter (onTime etv ltv)

variable {etv : Fin n → ℤ} {i : Fin n} {s : Printing n} {before : List (Fin n × EdgeNode n)}

theorem printEdge_outcome (printed : Printed etv ltv before s) (fits : Fits (ltv p.adjvex - p.w)) :
 Outcome allowed (printEdge etv ltv i s p) (Printed etv ltv (before ++ [(i, p)])) := by
 have early : (s.ete ++ [etv i])[s.idx]? = some (etv i) := by simp [← printed.ete]
 have late : (s.lte ++ [ltv p.adjvex - p.w])[s.idx]? = some (ltv p.adjvex - p.w) := by
  simp [← printed.lte]
 rw [printEdge, toInt_eq fits]
 simp only [Except.bind, early, late]
 apply returned
 constructor
 · simp [printed.ete]
 · simp [printed.lte]
 · rw [filter_append, ← printed.out]
   by_cases same : etv i = ltv p.adjvex - p.w <;> simp [onTime, same]

theorem printLoop_outcome (fits : ∀ v x cost, edge G v x cost → Fits (ltv x - cost)) :
 Outcome allowed (printLoop G etv ltv ⟨[], [], 0, []⟩) fun s =>
  s.out = (edges G).filter (onTime etv ltv) := by
 have rows : Outcome allowed (printLoop G etv ltv ⟨[], [], 0, []⟩)
  (Printed etv ltv (edges G)) := by
  apply foldlM fun rows => Printed etv ltv (rows.flatMap fun i =>
   (G.adjlist i).fristedge.map fun p => (i, p))
  · exact ⟨rfl, rfl, rfl⟩
  · intro rows i rest s _ printed
    rw [flatMap_append, flatMap_singleton]
    apply foldlM fun seen => Printed etv ltv
     ((rows.flatMap fun i => (G.adjlist i).fristedge.map fun p => (i, p)) ++
      seen.map fun p => (i, p))
    · simp_all
    · intro seen p rest s parts printed
      have along : p ∈ (G.adjlist i).fristedge := by
       rw [parts]
       exact mem_append_right seen mem_cons_self
      rw [map_append, ← append_assoc]
      exact printEdge_outcome printed (fits i p.adjvex p.w along)
 exact rows.mono fun s printed => printed.out

/-! ### The critical edges -/

/-- The edge is on one of the longest paths from the source to the sink. -/
def OnLongest (G : GraphAdjList n) (source sink : Fin n) (e : Fin n × EdgeNode n) : Prop :=
 ∃ front back a b, Walk (edge G) source e.1 front a ∧ Walk (edge G) e.2.adjvex sink back b ∧
  Longest (edge G) source sink (a + (e.2.w + b))

open Classical in
/-- The critical edges, each as often as the lists have it. -/
noncomputable def critical (G : GraphAdjList n) (source sink : Fin n) :
 List (Fin n × EdgeNode n) := (edges G).filter fun e => OnLongest G source sink e

variable {e : Fin n × EdgeNode n}

theorem mem_critical :
 e ∈ critical G source sink ↔ e ∈ edges G ∧ OnLongest G source sink e := by
 classical
 rw [critical, mem_filter, decide_eq_true_iff]

theorem mem_edges : e ∈ edges G ↔ edge G e.1 e.2.adjvex e.2.w := by
 obtain ⟨i, p⟩ := e
 rw [edges, mem_flatMap]
 constructor
 · rintro ⟨v, _, among⟩
   obtain ⟨q, along, same⟩ := mem_map.mp among
   cases same
   exact along
 · intro along
   exact ⟨i, mem_finRange i, mem_map.mpr ⟨p, along, rfl⟩⟩

theorem onLongest_iff {a b total : ℤ} (among : e ∈ edges G) (front : Longest (edge G) source e.1 a)
 (back : Longest (edge G) e.2.adjvex sink b) (whole : Longest (edge G) source sink total) :
 OnLongest G source sink e ↔ a + (e.2.w + b) = total := by
 obtain ⟨way, walk⟩ := front.1
 obtain ⟨way', walk'⟩ := back.1
 have along := mem_edges.mp among
 constructor
 · rintro ⟨_, _, a', b', walk₁, walk₂, longest⟩
   have same := longest.eq whole
   have first := front.2 _ _ walk₁
   have second := back.2 _ _ walk₂
   have atMost := whole.2 _ _ (walk.append (.step along walk'))
   omega
 · intro same
   exact ⟨way, way', a, b, walk, walk', same ▸ whole⟩

/-- All that is said of the result: the sort has all vertices and the lengths of the longest paths,
and the critical edges are printed, each once. -/
def FindsCritical (rounds : ℕ) (G : GraphAdjList (n + 1)) (source sink : Fin (n + 1)) : Prop :=
 (∃ c, topologicalSort rounds .new G = .ok (true, c) ∧
  ∀ v, Longest (edge G) source v (c.etv v)) ∧
 ∃ c, critialPath rounds .new G = .ok (c, critical G source sink)

section Network

variable {G : GraphAdjList (n + 1)} {source sink : Fin (n + 1)} {c : CritialPath (n + 1)}
variable {rounds : ℕ}

variable (network : Network G source sink)
include network

theorem critialPath_eq
 (small : ∀ way length, Walk (edge G) source sink way length → length ≤ intMax)
 (returned : topologicalSort rounds .new G = .ok (true, c)) (sorted : Sorted G c)
 (empty : c.ete = [] ∧ c.lte = []) :
 ∃ ltv c', critialPath rounds .new G = .ok (c', (edges G).filter (onTime c.etv ltv)) ∧
  ∀ v, Longest (edge G) v sink (c.etv (Fin.last n) - ltv v) := by
 have every := sorted.length_eq_iff.mp (sorted.length_eq_iff_acyclic.mpr network.acyclic)
 have start := sorted.positive (Fin.last n)
 have atMost := sorted.atMost (Fin.last n)
 have times : Outcome (fun _ => False) _ _ :=
  back_outcome network small sorted every start atMost
 obtain ⟨ltv, run⟩ := times.exists_ok fun _ => id
 have back := times.2 ltv run
 have printing : Outcome (fun _ => False) (printLoop G c.etv ltv _) _ := printLoop_outcome
  fun v x cost along => back.fits network small start atMost along (every x)
 obtain ⟨s, print⟩ := printing.exists_ok fun _ => id
 rw [critialPath, returned]
 simp only [Except.bind, run, empty.1, empty.2, print]
 refine ⟨ltv, _, congrArg Except.ok (Prod.ext rfl (printing.2 s print)), ?_⟩
 exact back.longest every (back.le network (every sink))

theorem exists_not_onTime (sorted : Sorted G c) {ltv : Fin (n + 1) → ℤ} (other : sink ≠ Fin.last n)
 (times : ∀ v, Longest (edge G) v sink (c.etv (Fin.last n) - ltv v)) :
 ∃ e ∈ edges G, OnLongest G source sink e ∧ ¬ onTime c.etv ltv e := by
 have every := sorted.length_eq_iff.mp (sorted.length_eq_iff_acyclic.mpr network.acyclic)
 have later : c.etv (Fin.last n) < c.etv sink := by
  obtain ⟨way, length, walk⟩ := network.reach_sink (Fin.last n)
  have grows := sorted.add_le walk (every sink)
  cases walk with
  | here => exact absurd rfl other
  | step along walk =>
   have weight := network.positive _ _ _ along
   have positive := network.nonneg walk
   omega
 have start := sorted.positive (Fin.last n)
 have whole := network.longest sorted sink
 obtain ⟨way, walk⟩ := whole.1
 generalize total : c.etv sink = length at walk
 cases walk with
 | here => omega
 | @step _ x _ cost length way along walk =>
  have same : c.etv sink = 0 + (cost + length) := by omega
  refine ⟨(source, ⟨x, cost⟩), mem_edges.mpr along,
   ⟨[], way, 0, length, .here source, walk, same ▸ whole⟩, fun onTime => ?_⟩
  have first := sorted.positive source
  have atMost := (times x).2 _ _ walk
  have early : c.etv source = ltv x - cost := of_decide_eq_true onTime
  omega

theorem findsCritical_iff (degrees : InDegrees G) (ints : Ints G) (enough : n + 1 < rounds) :
 FindsCritical rounds G source sink ↔ sink = Fin.last n ∧
  ∀ way length, Walk (edge G) source sink way length → length ≤ intMax := by
 constructor
 · rintro ⟨⟨c, returned, longest⟩, c', printed⟩
   obtain ⟨_, sorted, empty⟩ := (topologicalSort_outcome degrees ints enough).2 _ returned
   have small : ∀ way length, Walk (edge G) source sink way length → length ≤ intMax :=
    fun way length walk =>
     Int.le_trans ((longest sink).2 way length walk) (sorted.atMost sink)
   refine ⟨?_, small⟩
   by_contra other
   obtain ⟨ltv, c'', printed', times⟩ := critialPath_eq network small returned sorted empty
   obtain ⟨e, among, onLongest, late⟩ := exists_not_onTime network sorted other times
   have same : critical G source sink = (edges G).filter (onTime c.etv ltv) :=
    congrArg Prod.snd (Except.ok.inj (printed.symm.trans printed'))
   have inside : e ∈ critical G source sink := mem_critical.mpr ⟨among, onLongest⟩
   simp_all
 · rintro ⟨rfl, small⟩
   obtain ⟨c, returned, sorted, empty⟩ :=
    topologicalSort_of_acyclic degrees ints enough network.acyclic (network.not_tooLong small)
   obtain ⟨ltv, c', printed, times⟩ := critialPath_eq network small returned sorted empty
   have longest := network.longest sorted
   have same : critical G source (Fin.last n) = (edges G).filter (onTime c.etv ltv) := by
    apply filter_congr
    intro e among
    rw [onTime, decide_eq_decide,
     onLongest_iff among (longest e.1) (times e.2.adjvex) (longest (Fin.last n))]
    omega
   exact ⟨⟨c, returned, longest⟩, c', same ▸ printed⟩

end Network

/-- The sort and the critical edges are right for a network if and only if its sink is the vertex
with the last number and the length of its longest path is an `int`; with a cycle the sort says so,
unless a path that no cycle leads to is too long. -/
theorem critialPath_correct_iff {G : GraphAdjList (n + 1)} {rounds : ℕ} (degrees : InDegrees G)
 (ints : Ints G) (enough : n + 1 < rounds) :
 (∀ source sink, Network G source sink →
  (FindsCritical rounds G source sink ↔ sink = Fin.last n ∧
   ∀ way length, Walk (edge G) source sink way length → length ≤ intMax)) ∧
 (¬ Acyclic (edge G) →
  ((∃ c, topologicalSort rounds .new G = .ok (false, c)) ↔ ¬ TooLong G)) :=
 ⟨fun _ _ network => findsCritical_iff network degrees ints enough,
  topologicalSort_of_cycle degrees ints enough⟩

/-- The way over the second vertex is longer than the edge from the first one to the third one. -/
def detour (first second third : Fin 3) : GraphAdjList 3 :=
 ⟨fun v => if v = first then ⟨0, [⟨second, 2⟩, ⟨third, 4⟩]⟩
  else if v = second then ⟨1, [⟨third, 3⟩]⟩ else ⟨2, []⟩⟩

variable {first second third : Fin 3} (apart : first ≠ second ∧ second ≠ third ∧ first ≠ third)
include apart

theorem detour_edge {v x : Fin 3} : edge (detour first second third) v x cost ↔
 v = first ∧ x = second ∧ cost = 2 ∨ v = first ∧ x = third ∧ cost = 4 ∨
  v = second ∧ x = third ∧ cost = 3 := by
 rw [edge, detour]
 by_cases isFirst : v = first
 · simp [isFirst, apart.1]
 · by_cases isSecond : v = second <;> simp [isFirst, isSecond, apart.1.symm]

theorem detour_le {v w : Fin 3} {way : List (Fin 3)} {length : ℤ}
 (walk : Walk (edge (detour first second third)) v w way length) :
 (if v = first then 0 else if v = second then 2 else 5) + length ≤
  if w = first then 0 else if w = second then 2 else 5 :=
 walk.add_le (fun v => if v = first then 0 else if v = second then 2 else 5)
  fun v x cost along => by
   have := (detour_edge apart).mp along
   grind

theorem detour_positive (v x : Fin 3) (cost : ℤ)
 (along : edge (detour first second third) v x cost) : 0 < cost := by
 have := (detour_edge apart).mp along
 omega

theorem detour_network : Network (detour first second third) first third where
 acyclic v way length walk := by
  have atMost := detour_le apart walk
  cases walk with
  | here => rfl
  | step along walk =>
   have more := detour_positive apart _ _ _ along
   have rest := walk.nonneg fun v x cost along => (detour_positive apart v x cost along).le
   omega
 positive := detour_positive apart
 source v := by
  constructor
  · intro none
    have notSecond : v ≠ second := fun same =>
     none first 2 ((detour_edge apart).mpr (.inl ⟨rfl, same, rfl⟩))
    have notThird : v ≠ third := fun same =>
     none first 4 ((detour_edge apart).mpr (.inr (.inl ⟨rfl, same, rfl⟩)))
    omega
  · rintro rfl u cost along
    have := (detour_edge apart).mp along
    grind
 sink v := by
  constructor
  · intro none
    have notFirst : v ≠ first := fun same =>
     none second 2 ((detour_edge apart).mpr (.inl ⟨same, rfl, rfl⟩))
    have notSecond : v ≠ second := fun same =>
     none third 3 ((detour_edge apart).mpr (.inr (.inr ⟨same, rfl, rfl⟩)))
    omega
  · rintro rfl x cost along
    have := (detour_edge apart).mp along
    grind

theorem detour_ints : Ints (detour first second third) := by
 intro v x cost along
 have := (detour_edge apart).mp along
 unfold Fits intMax
 omega

omit apart

theorem critialPath_detour : FindsCritical 4 (detour 0 1 2) 0 2 := by
 have apart : (0 : Fin 3) ≠ 1 ∧ (1 : Fin 3) ≠ 2 ∧ (0 : Fin 3) ≠ 2 := by decide
 have correct := @critialPath_correct_iff 2 (detour 0 1 2) 4 (by decide) (detour_ints apart)
  (by decide)
 refine (correct.1 0 2 (detour_network apart)).mpr ⟨rfl, fun way length walk => ?_⟩
 have atMost := detour_le apart walk
 change 0 + length ≤ 5 at atMost
 unfold intMax
 omega

/-- With the numbers the other way round, the edges of the longest path are not printed. -/
theorem critialPath_detour_back :
 Network (detour 2 1 0) 2 0 ∧ InDegrees (detour 2 1 0) ∧ Ints (detour 2 1 0) ∧
  (critialPath 4 .new (detour 2 1 0)).map Prod.snd = .ok [] ∧
  (2, ⟨1, 2⟩) ∈ critical (detour 2 1 0) 2 0 := by
 have apart : (2 : Fin 3) ≠ 1 ∧ (1 : Fin 3) ≠ 0 ∧ (2 : Fin 3) ≠ 0 := by decide
 have along : edge (detour 2 1 0) 2 1 2 := (detour_edge apart).mpr (.inl ⟨rfl, rfl, rfl⟩)
 have later : Walk (edge (detour 2 1 0)) 1 0 [0] (3 + 0) :=
  .step ((detour_edge apart).mpr (.inr (.inr ⟨rfl, rfl, rfl⟩))) (.here 0)
 have longest : Longest (edge (detour 2 1 0)) 2 0 5 :=
  ⟨⟨[1, 0], .step along later⟩, fun way length walk => by simpa using detour_le apart walk⟩
 exact ⟨detour_network apart, by decide, detour_ints apart, rfl,
  mem_critical.mpr ⟨mem_edges.mpr along, [], [0], 0, 3, .here 2, later, longest⟩⟩

end MyNotes.Algorithms.CritialPath
