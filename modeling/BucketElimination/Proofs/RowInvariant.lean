import BucketElimination.Proofs.ReachableBuckets
import BucketElimination.Storage.Row
set_option autoImplicit false

/-!
# The invariant of rows

A row is well formed if it has, at each position, a well formed bucket of the variable with that
index.  Then every clause stands in the bucket of its pivot and nowhere else, so the row is known by
the list of all its clauses, which repeats none.  Uniting a bucket adds its clauses to this list,
taking a bucket out removes those with its variable as pivot.
-/

namespace BucketElimination.Row

/-- All clauses, bucket by bucket. -/
def clauses (r : Row) : List Clause := r.buckets.toList.flatMap Bucket.allClauses

/-- At each position stands a well formed bucket of the variable with that index. -/
def WellFormed (order : Order) (r : Row) : Prop :=
  ∀ (i : Nat) (b : Bucket), r.buckets[i]? = some b →
    b.WellFormed ∧ b.order = order ∧ b.var.index = i

/-- At each position stands a bucket that can be made for the variable with that index. -/
def Reachable (order : Order) (r : Row) : Prop :=
  ∀ (i : Nat) (b : Bucket), r.buckets[i]? = some b → ∃ v : Var, v.index = i ∧ b.Reachable v order

theorem Reachable.wellFormed {order : Order} {r : Row} (h : r.Reachable order) :
    r.WellFormed order := by
  intro i b hb
  obtain ⟨v, rfl, hreachable⟩ := h i b hb
  obtain ⟨hwf, hvar, horder⟩ := hreachable.wellFormed
  exact ⟨hwf, horder, congrArg Var.index hvar⟩

/-! ## Buckets of variables -/

theorem index_injective {v w : Var} (h : v.index = w.index) : v = w := by
  have hv := v.one_le
  have hw := w.one_le
  simp only [Var.index] at h
  exact Var.ext_number (by omega)

theorem get_eq_ok_iff {r : Row} {v : Var} {b : Bucket} :
    r.get v = .ok b ↔ r.buckets[v.index]? = some b := by
  unfold get
  cases r.buckets[v.index]? <;> simp

theorem exists_get_of_lt {r : Row} {v : Var} (h : v.index < r.size) : ∃ b, r.get v = .ok b := by
  obtain ⟨b, hb⟩ : ∃ b, r.buckets[v.index]? = some b := ⟨_, Array.getElem?_eq_getElem h⟩
  exact ⟨b, get_eq_ok_iff.2 hb⟩

theorem lt_size_of_get {r : Row} {v : Var} {b : Bucket} (h : r.get v = .ok b) :
    v.index < r.size :=
  (Array.getElem?_eq_some_iff.1 (get_eq_ok_iff.1 h)).1

theorem get_set_self {r : Row} {v : Var} {b : Bucket} (hget : r.get v = .ok b) (b' : Bucket) :
    (r.set v b').get v = .ok b' := by
  have hlt : v.index < r.buckets.size := lt_size_of_get hget
  rw [get_eq_ok_iff, Row.set, Array.getElem?_setIfInBounds_self_of_lt hlt]

theorem get_set_of_ne {r : Row} {v w : Var} (h : w ≠ v) (b : Bucket) :
    (r.set v b).get w = r.get w := by
  have hne : v.index ≠ w.index := fun he => h (index_injective he).symm
  simp only [Row.get, Row.set, Array.getElem?_setIfInBounds_ne hne]

section

variable {order : Order} {r : Row} {v : Var} {b b' : Bucket}

/-- The bucket of a variable in a well formed row. -/
theorem WellFormed.get (h : r.WellFormed order) (hget : r.get v = .ok b) :
    b.WellFormed ∧ b.order = order ∧ b.var = v := by
  obtain ⟨hwf, horder, hvar⟩ := h _ _ (get_eq_ok_iff.1 hget)
  exact ⟨hwf, horder, index_injective hvar⟩

theorem wellFormed_empty (order : Order) : empty.WellFormed order := by
  intro i b h
  simp [empty] at h

/-- Replacing the bucket of a variable by a well formed one keeps the row well formed. -/
theorem WellFormed.set (h : r.WellFormed order) (hb : b.WellFormed) (horder : b.order = order)
    (hvar : b.var = v) : (r.set v b).WellFormed order := by
  intro i d hd
  simp only [Row.set, Array.getElem?_setIfInBounds] at hd
  split at hd
  · rename_i hi
    split at hd
    · cases hd
      exact ⟨hb, horder, hvar ▸ hi⟩
    · cases hd
  · exact h i d hd

/-- A row is cut at the bucket of a variable, and replacing the bucket changes nothing else. -/
theorem exists_split (hget : r.get v = .ok b) :
    ∃ before after, r.buckets.toList = before ++ b :: after ∧
      ∀ b', (r.set v b').buckets.toList = before ++ b' :: after := by
  obtain ⟨hlt, hb⟩ := Array.getElem?_eq_some_iff.1 (get_eq_ok_iff.1 hget)
  have hlt' : v.index < r.buckets.toList.length := by simpa using hlt
  refine ⟨r.buckets.toList.take v.index, r.buckets.toList.drop (v.index + 1), ?_, fun b' => ?_⟩
  · rw [← hb, ← Array.getElem_toList, ← List.drop_eq_getElem_cons hlt', List.take_append_drop]
  · simp only [Row.set, Array.toList_setIfInBounds]
    exact List.set_eq_take_append_cons_drop.trans (if_pos hlt')

/-- Clauses are gained and lost only in the bucket that is replaced. -/
theorem length_clauses_set (hget : r.get v = .ok b) (b' : Bucket) :
    (r.set v b').clauses.length + b.allClauses.length =
      r.clauses.length + b'.allClauses.length := by
  obtain ⟨before, after, hr, hset⟩ := exists_split hget
  simp only [clauses, hr, hset, List.flatMap_append, List.flatMap_cons, List.length_append]
  omega

theorem mem_clauses_iff {c : Clause} :
    c ∈ r.clauses ↔ ∃ (i : Nat) (b : Bucket), r.buckets[i]? = some b ∧ c ∈ b.allClauses := by
  rw [clauses, List.mem_flatMap]
  constructor
  · rintro ⟨b, hb, hc⟩
    obtain ⟨i, hi⟩ := List.mem_iff_getElem?.1 hb
    exact ⟨i, b, Array.getElem?_toList ▸ hi, hc⟩
  · rintro ⟨i, b, hi, hc⟩
    exact ⟨b, List.mem_iff_getElem?.2 ⟨i, Array.getElem?_toList.symm ▸ hi⟩, hc⟩

/-- A clause with a pivot stands in the bucket of the pivot, on its side, or nowhere. -/
theorem WellFormed.mem_clauses_iff_of_get (h : r.WellFormed order) (hget : r.get v = .ok b)
    {p : Polarity} {c : Clause} (hp : order.pivot? c.lits = some ⟨v, p⟩) :
    c ∈ r.clauses ↔ c ∈ b.clauses p := by
  obtain ⟨hwf, horder, hvar⟩ := h.get hget
  rw [mem_clauses_iff]
  constructor
  · rintro ⟨i, d, hd, hc⟩
    obtain ⟨hdwf, hdorder, hdvar⟩ := h i d hd
    obtain ⟨q, hq⟩ := Bucket.mem_allClauses.1 hc
    have hpivot := hdwf.pivot_of_mem hq
    rw [hdorder, hp] at hpivot
    cases hpivot
    have hd' : r.get d.var = .ok d := get_eq_ok_iff.2 (hdvar ▸ hd)
    rw [hget] at hd'
    cases hd'
    exact hq
  · intro hc
    exact ⟨v.index, b, get_eq_ok_iff.1 hget, Bucket.mem_allClauses.2 ⟨p, hc⟩⟩

/-- Every clause of a well formed row has a pivot, whose bucket stores it. -/
theorem WellFormed.exists_pivot (h : r.WellFormed order) {c : Clause} (hc : c ∈ r.clauses) :
    ∃ v p b, order.pivot? c.lits = some ⟨v, p⟩ ∧ r.get v = .ok b ∧ c ∈ b.clauses p := by
  obtain ⟨i, b, hb, hc⟩ := mem_clauses_iff.1 hc
  obtain ⟨hwf, horder, hvar⟩ := h i b hb
  obtain ⟨p, hp⟩ := Bucket.mem_allClauses.1 hc
  exact ⟨b.var, p, b, horder ▸ hwf.pivot_of_mem hp, get_eq_ok_iff.2 (hvar ▸ hb), hp⟩

/-- A well formed row stores no clause twice. -/
theorem WellFormed.nodup_clauses (h : r.WellFormed order) : r.clauses.Nodup := by
  refine List.pairwise_flatMap.2 ⟨fun b hb => ?_, ?_⟩
  · obtain ⟨i, hi⟩ := List.mem_iff_getElem?.1 hb
    exact (h i b (by simpa using hi)).1.nodup_allClauses
  · refine List.pairwise_iff_getElem.2 fun i j hi hj hij c hc d hd hcd => ?_
    subst hcd
    have hbucket : ∀ k (hk : k < r.buckets.toList.length),
        r.buckets[k]? = some r.buckets.toList[k] := by
      intro k hk
      rw [← Array.getElem?_toList, List.getElem?_eq_getElem hk]
    obtain ⟨hwf, horder, hvar⟩ := h i _ (hbucket i hi)
    obtain ⟨hwf', horder', hvar'⟩ := h j _ (hbucket j hj)
    obtain ⟨p, hp⟩ := Bucket.mem_allClauses.1 hc
    obtain ⟨q, hq⟩ := Bucket.mem_allClauses.1 hd
    have hpivot := hwf.pivot_of_mem hp
    have hpivot' := hwf'.pivot_of_mem hq
    rw [horder] at hpivot
    rw [horder', hpivot, Option.some.injEq, Lit.mk.injEq] at hpivot'
    have : i = j := by rw [← hvar, ← hvar', hpivot'.1]
    omega

/-- Replacing a bucket exchanges its clauses for those of the new one. -/
theorem WellFormed.mem_clauses_set (h : r.WellFormed order) (hget : r.get v = .ok b) (c : Clause) :
    c ∈ (r.set v b').clauses ↔ c ∈ b'.allClauses ∨ c ∈ r.clauses ∧ c ∉ b.allClauses := by
  obtain ⟨before, after, hr, hset⟩ := exists_split hget
  have hnodup := h.nodup_clauses
  simp only [clauses, hr, hset, List.flatMap_append, List.flatMap_cons, List.mem_append] at *
  obtain ⟨-, hrest, hbefore⟩ := List.nodup_append.1 hnodup
  obtain ⟨-, -, hafter⟩ := List.nodup_append.1 hrest
  constructor
  · rintro (hc | hc | hc)
    · exact .inr ⟨.inl hc, fun hb => hbefore c hc c (List.mem_append_left _ hb) rfl⟩
    · exact .inl hc
    · exact .inr ⟨.inr (.inr hc), fun hb => hafter c hb c hc rfl⟩
  · rintro (hc | ⟨hc | hc | hc, hb⟩)
    · exact .inr (.inl hc)
    · exact .inl hc
    · exact absurd hc hb
    · exact .inr (.inr hc)

/-! ## Taking a bucket out -/

theorem allClauses_emptied (b : Bucket) : b.emptied.allClauses = [] := rfl

theorem take_of_get (hget : r.get v = .ok b) : r.take v = (r.set v b.emptied, .ok b) := by
  rw [take, hget]

/-- Taking out a bucket leaves a well formed row with the clauses of the other buckets. -/
theorem WellFormed.take (h : r.WellFormed order) (hget : r.get v = .ok b) :
    (r.set v b.emptied).WellFormed order ∧
      (∀ c, c ∈ (r.set v b.emptied).clauses ↔ c ∈ r.clauses ∧ c ∉ b.allClauses) ∧
      (r.set v b.emptied).clauses.length + b.allClauses.length = r.clauses.length := by
  obtain ⟨hwf, horder, hvar⟩ := h.get hget
  refine ⟨h.set (Bucket.wellFormed_empty _ _ _) horder hvar, fun c => ?_, ?_⟩
  · rw [h.mem_clauses_set hget, allClauses_emptied]
    simp
  · have hlength := length_clauses_set hget b.emptied
    rw [allClauses_emptied] at hlength
    exact hlength

/-! ## Uniting a bucket with the one of its variable -/

theorem unite_of_get {other : Bucket} (hget : r.get other.var = .ok b) (hvar : b.var = other.var) :
    r.unite other = (r.set other.var (b.absorbSides other).1, .ok (b.absorbSides other).2) := by
  rw [unite, hget]
  show (if b.var = other.var then r.update b.var fun b => b.absorbSides other else _) = _
  rw [if_pos hvar, hvar, update_eq, hget]

/-- Uniting a bucket adds the clauses that the row lacks and counts the others. -/
theorem WellFormed.unite {other : Bucket} (h : r.WellFormed order) (hother : other.WellFormed)
    (horder : other.order = order) (hlt : other.var.index < r.size) :
    ∃ r' dropped, r.unite other = (r', .ok dropped) ∧ r'.WellFormed order ∧ r'.size = r.size ∧
      (∀ c, c ∈ r'.clauses ↔ c ∈ r.clauses ∨ c ∈ other.allClauses) ∧
      r'.clauses.length + dropped = r.clauses.length + other.allClauses.length := by
  obtain ⟨b, hget⟩ := exists_get_of_lt hlt
  obtain ⟨hwf, hborder, hvar⟩ := h.get hget
  have hunion := hwf.unionOf hother hvar.symm (horder.trans hborder.symm)
  refine ⟨_, _, unite_of_get hget hvar, ?_, size_set _ _ _, fun c => ?_, ?_⟩
  · exact h.set hunion.wellFormed (hunion.order_eq.trans hborder) (hunion.var_eq.trans hvar)
  · rw [h.mem_clauses_set hget, hunion.mem_allClauses]
    have hsub : c ∈ b.allClauses → c ∈ r.clauses := fun hc =>
      mem_clauses_iff.2 ⟨_, b, get_eq_ok_iff.1 hget, hc⟩
    by_cases hc : c ∈ b.allClauses
    · simp [hc, hsub hc]
    · simp [hc, or_comm]
  · have hset := length_clauses_set hget (b.absorbSides other).1
    have hlength := hunion.length_eq
    omega

end

/-! ## Growing -/

/-- The row keeps its clauses and takes on some of the new ones. -/
structure Grows (order : Order) (new : List Clause) (r r' : Row) : Prop where
  wellFormed : r'.WellFormed order
  size_eq : r'.size = r.size
  kept : ∀ c ∈ r.clauses, c ∈ r'.clauses
  only : ∀ c ∈ r'.clauses, c ∈ r.clauses ∨ c ∈ new

theorem Grows.refl {order : Order} {r : Row} (h : r.WellFormed order) (new : List Clause) :
    Grows order new r r :=
  ⟨h, rfl, fun _ hc => hc, fun _ hc => .inl hc⟩

theorem Grows.trans {order : Order} {new new' : List Clause} {r r' r'' : Row}
    (h : Grows order new r r') (h' : Grows order new' r' r'') (hnew : ∀ c ∈ new', c ∈ new) :
    Grows order new r r'' where
  wellFormed := h'.wellFormed
  size_eq := h'.size_eq.trans h.size_eq
  kept := fun c hc => h'.kept c (h.kept c hc)
  only := by
    intro c hc
    rcases h'.only c hc with hc | hc
    · exact h.only c hc
    · exact .inr (hnew c hc)

end BucketElimination.Row
