import BucketElimination.Proofs.BucketInvariant
set_option autoImplicit false

/-!
# Reachable buckets

What storing, removing and uniting make out of empty buckets keeps each clause once and on the side
of its pivot, in one of the orders that the empty buckets had; so the buckets made out of empty ones
of one order are well formed.  Uniting two of these leaves the clauses of both, each once, and counts
the clauses that both had.
-/

namespace BucketElimination.Bucket

/-! ## Removing a clause -/

theorem pop_eq (b : Bucket) (p : Polarity) :
    b.pop p =
      match (b.side p).pop? with
      | none => .error (.sideEmpty p b.var)
      | some (c, side) =>
        .ok (({ b with index := (b.index.erase c.lits).1 } : Bucket).setSide p side, c) := by
  obtain ⟨v, order, key, positive, negative, index⟩ := b
  cases p with
  | positive => cases hpop : positive.pop? <;> simp only [pop, detach, side, setSide, hpop]
  | negative => cases hpop : negative.pop? <;> simp only [pop, detach, side, setSide, hpop]

theorem pop_eq_ok {b b' : Bucket} {p : Polarity} {c : Clause} (h : b.pop p = .ok (b', c)) :
    ∃ side, (b.side p).pop? = some (c, side) ∧
      b' = ({ b with index := (b.index.erase c.lits).1 } : Bucket).setSide p side := by
  rw [pop_eq] at h
  split at h
  · cases h
  · rename_i d side hpop
    cases h
    exact ⟨side, hpop, rfl⟩

/-- What removing a clause from a side does: it was the last one, and the others stay. -/
theorem Sided.pop {b b' : Bucket} {p : Polarity} {c : Clause} (h : b.Sided)
    (hpop : b.pop p = .ok (b', c)) :
    b'.Sided ∧ b'.var = b.var ∧ b'.order = b.order ∧ b.clauses p = b'.clauses p ++ [c] ∧
      ∀ q, q ≠ p → b'.side q = b.side q := by
  obtain ⟨side, hside, rfl⟩ := pop_eq_ok hpop
  have hlist := Side.toList_pop? hside
  have hwf := (h.side p).pop? hside
  have hother : ∀ q, q ≠ p → (({ b with index := (b.index.erase c.lits).1 } : Bucket).setSide p
      side).side q = b.side q := by
    intro q hq
    rw [side_setSide_of_ne _ hq]
    cases q <;> rfl
  have hsub : ∀ q x, x ∈ ((({ b with index := (b.index.erase c.lits).1 } : Bucket).setSide p
      side).side q).toList ↔ x ∈ (b.side q).toList ∧ x ≠ c := by
    intro q x
    by_cases hq : q = p
    · subst hq
      rw [side_setSide_self]
      have hnodup := h.nodup q
      rw [hlist, List.nodup_append] at hnodup
      rw [hlist, List.mem_append, List.mem_singleton]
      constructor
      · intro hx
        exact ⟨.inl hx, hnodup.2.2 x hx c (List.mem_singleton_self c)⟩
      · rintro ⟨hx | hx, hne⟩
        · exact hx
        · exact absurd hx hne
    · rw [hother q hq]
      refine ⟨fun hx => ⟨hx, ?_⟩, And.left⟩
      rintro rfl
      exact hq (h.side_unique hx (h.mem_lits p x (hlist ▸ List.mem_append_right _ (by simp))))
  have hcontains : b.index.contains c.lits = true :=
    (h.indexed _).2 ⟨p, c, hlist ▸ List.mem_append_right _ (List.mem_singleton_self c), rfl⟩
  have hsided : (({ b with
      index := (b.index.erase c.lits).1 } : Bucket).setSide p side).Sided := by
    refine ⟨fun q => ?_, fun q => ?_, fun q x hx => ?_, fun lits => ?_, ?_⟩
    · by_cases hq : q = p
      · subst hq
        rw [side_setSide_self]
        exact hwf
      · exact hother q hq ▸ h.side q
    · by_cases hq : q = p
      · subst hq
        rw [side_setSide_self]
        have hnodup := h.nodup q
        rw [hlist] at hnodup
        exact (List.nodup_append.1 hnodup).1
      · exact hother q hq ▸ h.nodup q
    · rw [var_setSide]
      exact h.mem_lits q x ((hsub q x).1 hx).1
    · rw [index_setSide, DuplicateIndex.contains_erase, Bool.and_eq_true, decide_eq_true_eq,
        h.indexed]
      constructor
      · rintro ⟨hne, q, x, hx, rfl⟩
        exact ⟨q, x, (hsub q x).2 ⟨hx, fun hxc => hne (hxc ▸ rfl)⟩, rfl⟩
      · rintro ⟨q, x, hx, rfl⟩
        obtain ⟨hx, hne⟩ := (hsub q x).1 hx
        exact ⟨fun hlits => hne (Clause.ext_lits hlits), q, x, hx, rfl⟩
    · have hsize : b.size p = side.size + 1 := by
        rw [size, (h.side p).size_eq, hlist, List.length_append, hwf.size_eq]
        rfl
      have hindex := h.index_size
      rw [index_setSide, DuplicateIndex.size_erase_of_contains hcontains]
      cases p with
      | positive =>
        show b.index.size - 1 = side.size + b.size .negative
        omega
      | negative =>
        show b.index.size - 1 = b.size .positive + side.size
        omega
  refine ⟨hsided, by simp, by simp, ?_, hother⟩
  rw [h.clauses_eq, hsided.clauses_eq, side_setSide_self, hlist]

/-! ## Uniting -/

theorem absorb_eq (b : Bucket) (p : Polarity) (source : Side) :
    b.absorb p source =
      (({ b with
          index := (Intake.takeSide ⟨b.index, b.side p, 0⟩ source).index } : Bucket).setSide p
          (Intake.takeSide ⟨b.index, b.side p, 0⟩ source).side,
        (Intake.takeSide ⟨b.index, b.side p, 0⟩ source).dropped) := by
  obtain ⟨v, order, key, positive, negative, index⟩ := b
  cases p <;> rfl

/-- What uniting with one side of another bucket does: the clauses that the side lacks come last on
it, and the others are counted. -/
theorem Sided.absorb {b : Bucket} {p : Polarity} {source : Side} (h : b.Sided)
    (hsource : source.WellFormed) (hmem : ∀ c ∈ source.toList, (⟨b.var, p⟩ : Lit) ∈ c.lits) :
    (b.absorb p source).1.Sided ∧ (b.absorb p source).1.var = b.var ∧
      (b.absorb p source).1.order = b.order ∧
      (∀ q, q ≠ p → (b.absorb p source).1.side q = b.side q) ∧
      ∃ kept, (b.absorb p source).1.clauses p = b.clauses p ++ kept ∧ kept.Nodup ∧
        (∀ c, c ∈ kept ↔ c ∈ source.toList ∧ c ∉ b.clauses p) ∧
        (b.absorb p source).2 + kept.length = source.toList.length := by
  have htook := Intake.took_takeSide ⟨b.index, b.side p, 0⟩ hsource
  rw [absorb_eq]
  generalize hi : Intake.takeSide ⟨b.index, b.side p, 0⟩ source = i at htook ⊢
  obtain ⟨kept, hlist, hnodup, hkept, hdropped, hsize⟩ := htook.stored
  have hother : ∀ q, q ≠ p → (({ b with index := i.index } : Bucket).setSide p i.side).side q =
      b.side q := by
    intro q hq
    rw [side_setSide_of_ne _ hq]
    cases q <;> rfl
  have hsided : (({ b with index := i.index } : Bucket).setSide p i.side).Sided := by
    refine h.grow p kept (by simp) hother ?_ ?_ hnodup ?_ ?_ ?_
    · rw [side_setSide_self]
      exact htook.wellFormed (h.side p)
    · rw [side_setSide_self, hlist]
    · intro c hc
      obtain ⟨hxs, hnew⟩ := (hkept c).1 hc
      exact ⟨hmem c hxs, hnew⟩
    · intro lits
      rw [index_setSide, htook.contains_iff]
      constructor
      · rintro (hold | ⟨c, hc, rfl⟩)
        · exact .inl hold
        · cases hknown : b.index.contains c.lits with
          | true => exact .inl rfl
          | false => exact .inr ⟨c, (hkept c).2 ⟨hc, hknown⟩, rfl⟩
      · rintro (hold | ⟨c, hc, rfl⟩)
        · exact .inl hold
        · exact .inr ⟨c, ((hkept c).1 hc).1, rfl⟩
    · rw [index_setSide]
      exact hsize
  refine ⟨hsided, by simp, by simp, hother, kept, ?_, hnodup, fun c => ?_, ?_⟩
  · rw [hsided.clauses_eq, side_setSide_self, hlist, h.clauses_eq]
  · rw [hkept]
    refine and_congr_right fun hc => ?_
    rw [← h.contains_iff (hmem c hc)]
    simp
  · simpa using hdropped

/-- What uniting two buckets gives. -/
structure UnionOf (b other b' : Bucket) (dropped : Nat) : Prop where
  wellFormed : b'.WellFormed
  var_eq : b'.var = b.var
  order_eq : b'.order = b.order
  /-- Each side keeps its clauses in their places and takes on those it lacks. -/
  clauses_eq : ∀ p, ∃ kept, b'.clauses p = b.clauses p ++ kept ∧ kept.Nodup ∧
    ∀ c, c ∈ kept ↔ c ∈ other.clauses p ∧ c ∉ b.clauses p
  /-- What is not stored twice is counted. -/
  length_eq : b'.allClauses.length + dropped = b.allClauses.length + other.allClauses.length

theorem clauses_congr {b b' : Bucket} {p : Polarity} (h : b'.side p = b.side p) :
    b'.clauses p = b.clauses p := by
  rw [clauses, clauses, h]

/-- The key has no part in the invariant. -/
theorem Sided.setKey {b : Bucket} (h : b.Sided) (key : Option Lit) :
    ({ b with key } : Bucket).Sided := by
  refine h.grow .positive [] rfl (fun q _ => ?_) (h.side .positive) ?_
    List.nodup_nil (by simp) (by simp) rfl
  · cases q <;> rfl
  · exact (List.append_nil _).symm

theorem absorbSides_eq (b other : Bucket) :
    b.absorbSides other =
      let b₁ :=
        ({ b with key := other.key.or b.key } : Bucket).absorb .positive (other.side .positive)
      let b₂ := b₁.1.absorb .negative (other.side .negative)
      (b₂.1, b₁.2 + b₂.2) := rfl

/-- What uniting two buckets of one variable does, whatever their orders. -/
theorem Sided.absorbSides {b other : Bucket} (h : b.Sided) (h' : other.Sided)
    (hvar : other.var = b.var) :
    (b.absorbSides other).1.Sided ∧ (b.absorbSides other).1.var = b.var ∧
      (b.absorbSides other).1.order = b.order ∧
      (∀ p, ∃ kept, (b.absorbSides other).1.clauses p = b.clauses p ++ kept ∧ kept.Nodup ∧
        ∀ c, c ∈ kept ↔ c ∈ other.clauses p ∧ c ∉ b.clauses p) ∧
      (b.absorbSides other).1.allClauses.length + (b.absorbSides other).2 =
        b.allClauses.length + other.allClauses.length := by
  have hmem : ∀ p, ∀ c ∈ (other.side p).toList, (⟨b.var, p⟩ : Lit) ∈ c.lits := by
    intro p
    rw [← hvar]
    exact h'.mem_lits p
  have hclauses : ∀ p, ({ b with key := other.key.or b.key } : Bucket).clauses p = b.clauses p :=
    fun p => by cases p <;> rfl
  rw [absorbSides_eq]
  have h₁ := (h.setKey (other.key.or b.key)).absorb (h'.side .positive) (hmem .positive)
  rw [hclauses] at h₁
  generalize Bucket.absorb _ .positive (other.side .positive) = b₁ at h₁ ⊢
  obtain ⟨hsided₁, hvar₁, horder₁, hother₁, kept₁, hlist₁, hnodup₁, hmem₁, hcount₁⟩ := h₁
  have h₂ := hsided₁.absorb (h'.side .negative) (by rw [hvar₁]; exact hmem .negative)
  rw [(clauses_congr (hother₁ .negative (by decide))).trans (hclauses .negative)] at h₂
  simp only
  generalize Bucket.absorb _ .negative (other.side .negative) = b₂ at h₂ ⊢
  obtain ⟨hsided₂, hvar₂, horder₂, hother₂, kept₂, hlist₂, hnodup₂, hmem₂, hcount₂⟩ := h₂
  have hpos₂ := (clauses_congr (hother₂ .positive (by decide))).trans hlist₁
  rw [← h'.clauses_eq] at hmem₁ hmem₂ hcount₁ hcount₂
  refine ⟨hsided₂, hvar₂.trans hvar₁, horder₂.trans horder₁, fun p => ?_, ?_⟩
  · cases p with
    | positive => exact ⟨kept₁, hpos₂, hnodup₁, hmem₁⟩
    | negative => exact ⟨kept₂, hlist₂, hnodup₂, hmem₂⟩
  · rw [allClauses_eq, allClauses_eq, allClauses_eq, hpos₂, hlist₂]
    simp only [List.length_append]
    omega

theorem WellFormed.unionOf {b other : Bucket} (h : b.WellFormed) (h' : other.WellFormed)
    (hvar : other.var = b.var) (horder : other.order = b.order) :
    UnionOf b other (b.absorbSides other).1 (b.absorbSides other).2 := by
  obtain ⟨hsided, hvar', horder', hclauses, hlength⟩ := h.sided.absorbSides h'.sided hvar
  refine ⟨hsided.wellFormed fun p c hc => ?_, hvar', horder', hclauses, hlength⟩
  obtain ⟨kept, hlist, -, hmem⟩ := hclauses p
  rw [hvar', horder']
  rw [hlist, List.mem_append] at hc
  rcases hc with hc | hc
  · exact h.pivot_of_mem hc
  · rw [← hvar, ← horder]
    exact h'.pivot_of_mem ((hmem c).1 hc).1

/-- A united bucket has the clauses of both. -/
theorem UnionOf.mem_clauses {b other b' : Bucket} {dropped : Nat} (h : UnionOf b other b' dropped)
    (p : Polarity) (c : Clause) : c ∈ b'.clauses p ↔ c ∈ b.clauses p ∨ c ∈ other.clauses p := by
  obtain ⟨kept, hlist, -, hmem⟩ := h.clauses_eq p
  rw [hlist, List.mem_append, hmem]
  by_cases hc : c ∈ b.clauses p <;> simp [hc]

theorem UnionOf.mem_allClauses {b other b' : Bucket} {dropped : Nat}
    (h : UnionOf b other b' dropped) (c : Clause) :
    c ∈ b'.allClauses ↔ c ∈ b.allClauses ∨ c ∈ other.allClauses := by
  simp only [Bucket.mem_allClauses, h.mem_clauses, exists_or]

/-! ## Reachability -/

/-- The buckets of a variable that storing, removing and uniting make out of empty ones, of any
capacity and of the orders that are allowed. -/
inductive Made (v : Var) (allowed : Order → Prop) : Bucket → Prop
  | empty {order : Order} (capacity : Capacity) :
      allowed order → Made v allowed (Bucket.empty v order capacity)
  | add {b b' : Bucket} {c : Clause} {p : Polarity} {new : Bool} :
      Made v allowed b → b.add c p = .ok (b', new) → Made v allowed b'
  | pop {b b' : Bucket} {c : Clause} {p : Polarity} :
      Made v allowed b → b.pop p = .ok (b', c) → Made v allowed b'
  | union {b other b' : Bucket} {dropped : Nat} :
      Made v allowed b → Made v allowed other → b.union other = .ok (b', dropped) →
        Made v allowed b'

/-- The buckets of a variable that can be made out of empty ones of one order. -/
def Reachable (v : Var) (order : Order) : Bucket → Prop := Made v (· = order)

/-- The buckets of a variable that can be made out of empty ones of any orders. -/
def Built (v : Var) : Bucket → Prop := Made v fun _ => True

theorem pivotOn_eq_ok_iff {b : Bucket} {c : Clause} {p : Polarity} {pivot : Lit} :
    b.pivotOn c p = .ok pivot ↔
      pivot = ⟨b.var, p⟩ ∧ b.order.pivot? c.lits = some ⟨b.var, p⟩ := by
  unfold pivotOn
  cases hp : b.order.pivot? c.lits with
  | none => simp
  | some l =>
    obtain ⟨w, q⟩ := l
    by_cases hl : w = b.var ∧ q = p
    · obtain ⟨rfl, rfl⟩ := hl
      simp [eq_comm]
    · simp only [hl, if_false, reduceCtorEq, Option.some.injEq, Lit.mk.injEq, and_false]

/-- A clause that was added was stored under its pivot. -/
theorem add_eq_ok {b b' : Bucket} {c : Clause} {p : Polarity} {new : Bool}
    (h : b.add c p = .ok (b', new)) :
    b.order.pivot? c.lits = some ⟨b.var, p⟩ ∧ b.store c ⟨b.var, p⟩ = (b', new) := by
  unfold Bucket.add at h
  split at h
  · cases h
  · rename_i pivot hpivot
    obtain ⟨rfl, hp⟩ := pivotOn_eq_ok_iff.1 hpivot
    exact ⟨hp, Except.ok.inj h⟩

/-- Buckets that were united had one variable. -/
theorem union_eq_ok {b other b' : Bucket} {dropped : Nat}
    (h : b.union other = .ok (b', dropped)) :
    b.var = other.var ∧ b.absorbSides other = (b', dropped) := by
  unfold Bucket.union at h
  split at h
  · rename_i hvar
    exact ⟨hvar, Except.ok.inj h⟩
  · cases h

section

variable {v : Var} {order : Order} {allowed : Order → Prop} {b : Bucket}

theorem Made.mono {allowed' : Order → Prop} (hmono : ∀ order, allowed order → allowed' order)
    (h : b.Made v allowed) : b.Made v allowed' := by
  induction h with
  | empty capacity horder => exact .empty capacity (hmono _ horder)
  | add _ hadd ih => exact .add ih hadd
  | pop _ hpop ih => exact .pop ih hpop
  | union _ _ hunion ih ih' => exact .union ih ih' hunion

/-- Storing, removing and uniting keep the sides and the index in step, and each clause is on the
side of its pivot in one of the orders. -/
theorem Made.filed (h : b.Made v allowed) :
    b.Sided ∧ b.var = v ∧ allowed b.order ∧
      ∀ p, ∀ c ∈ b.clauses p, ∃ order, allowed order ∧ order.pivot? c.lits = some ⟨v, p⟩ := by
  induction h with
  | @empty order capacity horder =>
    refine ⟨sided_empty v order capacity, rfl, horder, fun p c hc => ?_⟩
    cases p <;> cases hc
  | @add b b' c p new _ hadd ih =>
    obtain ⟨hsided, hvar, horder, hfiled⟩ := ih
    obtain ⟨hp, hstore⟩ := add_eq_ok hadd
    have hstored := hsided.store (Order.pivot_mem hp)
    rw [hstore] at hstored
    obtain ⟨hsided', hvar', horder', -, hclauses, hother⟩ := hstored
    refine ⟨hsided', hvar'.trans hvar, horder' ▸ horder, fun q d hd => ?_⟩
    by_cases hq : q = p
    · subst hq
      rw [hclauses, List.mem_append] at hd
      rcases hd with hd | hd
      · exact hfiled q d hd
      · obtain rfl : d = c := by
          split at hd
          · cases hd
          · exact List.mem_singleton.1 hd
        exact ⟨b.order, horder, hvar ▸ hp⟩
    · rw [clauses_congr (hother q hq)] at hd
      exact hfiled q d hd
  | @pop b b' c p _ hpop ih =>
    obtain ⟨hsided, hvar, horder, hfiled⟩ := ih
    obtain ⟨hsided', hvar', horder', hclauses, hother⟩ := hsided.pop hpop
    refine ⟨hsided', hvar'.trans hvar, horder' ▸ horder, fun q d hd => hfiled q d ?_⟩
    by_cases hq : q = p
    · subst hq
      rw [hclauses]
      exact List.mem_append_left _ hd
    · rwa [← clauses_congr (hother q hq)]
  | @union b other b' dropped _ _ hunion ih ih' =>
    obtain ⟨hsided, hvar, horder, hfiled⟩ := ih
    obtain ⟨hsided', hvar', -, hfiled'⟩ := ih'
    have hunited := hsided.absorbSides hsided' (hvar'.trans hvar.symm)
    rw [(union_eq_ok hunion).2] at hunited
    obtain ⟨hsided'', hvar'', horder'', hclauses, -⟩ := hunited
    refine ⟨hsided'', hvar''.trans hvar, horder'' ▸ horder, fun p c hc => ?_⟩
    obtain ⟨kept, hlist, -, hkept⟩ := hclauses p
    rw [hlist, List.mem_append] at hc
    rcases hc with hc | hc
    · exact hfiled p c hc
    · exact hfiled' p c ((hkept c).1 hc).1

/-- Buckets of one order are well formed. -/
theorem Reachable.wellFormed (h : b.Reachable v order) :
    b.WellFormed ∧ b.var = v ∧ b.order = order := by
  obtain ⟨hsided, rfl, rfl, hfiled⟩ := Made.filed h
  refine ⟨hsided.wellFormed fun p c hc => ?_, rfl, rfl⟩
  obtain ⟨order, rfl, hpivot⟩ := hfiled p c hc
  exact hpivot

theorem Built.sided (h : b.Built v) : b.Sided ∧ b.var = v := by
  obtain ⟨hsided, hvar, -⟩ := Made.filed h
  exact ⟨hsided, hvar⟩

theorem Reachable.built (h : b.Reachable v order) : b.Built v :=
  Made.mono (fun _ _ => trivial) h

end

end BucketElimination.Bucket
