/-
The order of `Comparator` on tuples of which some sort keys may be `NULL`.
-/

import MyNotes.Cmu15445.SortExecutors

namespace MyNotes.Cmu15445

variable {Tuple Other : Type} [LinearOrder Other] {orderBys : OrderBys Tuple Other}
 {t1 t2 t3 : Tuple}

/-- What `std::sort` asks of a comparator on the tuples that it is given. -/
structure StrictWeakOn (less : Tuple → Tuple → Bool) (tuples : Set Tuple) : Prop where
 irrefl : ∀ tuple ∈ tuples, less tuple tuple = false
 trans : ∀ t1 ∈ tuples, ∀ t2 ∈ tuples, ∀ t3 ∈ tuples,
  less t1 t2 = true → less t2 t3 = true → less t1 t3 = true
 incomparable : ∀ t1 ∈ tuples, ∀ t2 ∈ tuples, ∀ t3 ∈ tuples,
  less t1 t2 = false ∧ less t2 t1 = false → less t2 t3 = false ∧ less t3 t2 = false →
   less t1 t3 = false ∧ less t3 t1 = false

/-- The keys differ somewhere, and up to there none of them is `NULL`. -/
def decided : List (ColumnValue Other) → List (ColumnValue Other) → Prop
 | some v1 :: keys1, some v2 :: keys2 => v1 = v2 → decided keys1 keys2
 | _, _ => False

/-- The keys in the middle agree with the others up to a `NULL`, and the others are decided. -/
def bridged : List (ColumnValue Other) → List (ColumnValue Other) → List (ColumnValue Other) → Prop
 | some v1 :: keys1, some v2 :: keys2, some v3 :: keys3 =>
  v1 = v2 ∧ v2 = v3 ∧ bridged keys1 keys2 keys3
 | some v1 :: keys1, none :: _, some v3 :: keys3 => v1 = v3 → decided keys1 keys3
 | _, _, _ => False

theorem comparator_null {orderBy : OrderByType × (Tuple → ColumnValue Other)}
 {rest : OrderBys Tuple Other} (null : orderBy.2 t1 = none ∨ orderBy.2 t2 = none) :
 comparator (orderBy :: rest) t1 t2 = false := by
 rw [comparator]
 rcases null with null | null
 · rw [null]
   cases orderBy.2 t2 <;> exact ite_self _
 · rw [null]
   cases orderBy.2 t1 <;> exact ite_self _

theorem exists_keys_of_comparator {orderBy : OrderByType × (Tuple → ColumnValue Other)}
 {rest : OrderBys Tuple Other} (less : comparator (orderBy :: rest) t1 t2 = true) :
 ∃ v1 v2, orderBy.2 t1 = some v1 ∧ orderBy.2 t2 = some v2 := by
 cases first : orderBy.2 t1 with
 | none =>
  rw [comparator_null (.inl first)] at less
  cases less
 | some v1 =>
  cases second : orderBy.2 t2 with
  | none =>
   rw [comparator_null (.inr second)] at less
   cases less
  | some v2 => exact ⟨v1, v2, rfl, rfl⟩

theorem comparator_self : comparator orderBys t1 t1 = false := by
 induction orderBys with
 | nil => rfl
 | cons orderBy rest ih =>
  cases key : orderBy.2 t1 with
  | none => exact comparator_null (.inl key)
  | some v1 => rw [comparator_cons key key, if_pos rfl, ih]

theorem comparator_trans (first : comparator orderBys t1 t2 = true)
 (second : comparator orderBys t2 t3 = true) : comparator orderBys t1 t3 = true := by
 induction orderBys with
 | nil => cases first
 | cons orderBy rest ih =>
  obtain ⟨v1, v2, key1, key2⟩ := exists_keys_of_comparator first
  obtain ⟨-, v3, -, key3⟩ := exists_keys_of_comparator second
  rw [comparator_cons key1 key2] at first
  rw [comparator_cons key2 key3] at second
  rw [comparator_cons key1 key3]
  by_cases same12 : v1 = v2
  · subst same12
    by_cases same13 : v1 = v3
    · rw [if_pos same13] at second ⊢
      rw [if_pos rfl] at first
      exact ih first second
    · rw [if_neg same13] at second ⊢
      exact second
  · rw [if_neg same12] at first
    by_cases same23 : v2 = v3
    · subst same23
      rw [if_neg same12]
      exact first
    · rw [if_neg same23] at second
      have third := before_trans first second
      rw [if_neg fun same => ?_]
      · exact third
      · subst same
        rw [before_asymm first] at second
        cases second

theorem incomparable_iff : comparator orderBys t1 t2 = false ∧ comparator orderBys t2 t1 = false ↔
 ¬ decided (sortKeys orderBys t1) (sortKeys orderBys t2) := by
 induction orderBys with
 | nil => exact ⟨fun _ impossible => impossible, fun _ => ⟨rfl, rfl⟩⟩
 | cons orderBy rest ih =>
  unfold sortKeys at ih ⊢
  rw [List.map_cons, List.map_cons]
  cases key1 : orderBy.2 t1 with
  | none =>
   exact ⟨fun _ => by simp [decided],
    fun _ => ⟨comparator_null (.inl key1), comparator_null (.inr key1)⟩⟩
  | some v1 =>
   cases key2 : orderBy.2 t2 with
   | none =>
    exact ⟨fun _ => by simp [decided],
     fun _ => ⟨comparator_null (.inr key2), comparator_null (.inl key2)⟩⟩
   | some v2 =>
    rw [comparator_cons key1 key2, comparator_cons key2 key1, decided]
    by_cases same : v1 = v2
    · rw [if_pos same, if_pos same.symm, ih]
      exact not_congr ⟨fun apart _ => apart, fun apart => apart same⟩
    · rw [if_neg same, if_neg (Ne.symm same)]
      constructor
      · rintro ⟨left, right⟩
        have either : before orderBy.1 v1 v2 = true ∨ before orderBy.1 v2 v1 = true :=
         before_total same
        rcases either with less | less
        · rw [left] at less
          cases less
        · rw [right] at less
          cases less
      · exact fun apart => absurd (fun same' => absurd same' same) apart

theorem bridged_iff : bridged (sortKeys orderBys t1) (sortKeys orderBys t2) (sortKeys orderBys t3) ↔
 ¬ decided (sortKeys orderBys t1) (sortKeys orderBys t2) ∧
  ¬ decided (sortKeys orderBys t2) (sortKeys orderBys t3) ∧
  decided (sortKeys orderBys t1) (sortKeys orderBys t3) := by
 induction orderBys with
 | nil => simp [sortKeys, bridged, decided]
 | cons orderBy rest ih =>
  unfold sortKeys at ih ⊢
  rw [List.map_cons, List.map_cons, List.map_cons]
  cases orderBy.2 t1 with
  | none => simp [bridged, decided]
  | some v1 =>
   cases orderBy.2 t3 with
   | none => cases orderBy.2 t2 <;> simp [bridged, decided]
   | some v3 =>
    cases orderBy.2 t2 with
    | none => simp [bridged, decided]
    | some v2 =>
     rw [bridged, decided, decided, decided, ih]
     by_cases same12 : v1 = v2
     · by_cases same23 : v2 = v3
       · simp [same12, same23]
       · simp [same23]
     · simp [same12]

theorem strictWeakOn_comparator_iff {tuples : Set Tuple} :
 StrictWeakOn (comparator orderBys) tuples ↔
  ∀ t1 ∈ tuples, ∀ t2 ∈ tuples, ∀ t3 ∈ tuples,
   ¬ bridged (sortKeys orderBys t1) (sortKeys orderBys t2) (sortKeys orderBys t3) := by
 constructor
 · intro order t1 in1 t2 in2 t3 in3 bridge
   obtain ⟨apart12, apart23, together⟩ := bridged_iff.mp bridge
   exact incomparable_iff.mp (order.incomparable t1 in1 t2 in2 t3 in3
    (incomparable_iff.mpr apart12) (incomparable_iff.mpr apart23)) together
 · intro unbridged
   refine ⟨fun _ _ => comparator_self, fun t1 _ t2 _ t3 _ => comparator_trans, ?_⟩
   intro t1 in1 t2 in2 t3 in3 apart12 apart23
   rw [incomparable_iff] at apart12 apart23 ⊢
   exact fun together =>
    unbridged t1 in1 t2 in2 t3 in3 (bridged_iff.mpr ⟨apart12, apart23, together⟩)

theorem not_strictWeakOn_comparator : ¬ ∀ (orderBys : OrderBys (ColumnValue ℕ) ℕ),
 StrictWeakOn (comparator orderBys) Set.univ := by
 intro order
 have equal := (order [(.asc, id)]).incomparable (some (.integer 1)) trivial none trivial
  (some (.integer 2)) trivial (by decide) (by decide)
 exact absurd equal (by decide)

end MyNotes.Cmu15445
