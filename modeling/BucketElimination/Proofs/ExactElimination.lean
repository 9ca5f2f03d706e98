import BucketElimination.Proofs.Eliminations
import BucketElimination.Proofs.IndexedBuckets
import BucketElimination.Proofs.Serial
set_option autoImplicit false

/-!
# Exact elimination: a variable is quantified away

When the buckets of all earlier variables are empty, the bucket of a variable has all clauses that
mention it.  Eliminating the variable then leaves the formula with the variable quantified away, and
derives the empty clause exactly if the bucket has both units of the variable.  This holds for every
schedule of the tasks.
-/

namespace BucketElimination

/-- The assignment satisfies every clause of the row. -/
def Row.SatisfiedBy (r : Row) (a : Assignment) : Prop := ∀ c ∈ r.clauses, a.satisfies c.lits = true

/-- Both units of the bucket's variable are stored. -/
def Bucket.HasUnits (b : Bucket) : Prop :=
  (∃ c ∈ b.allClauses, c.lits = [⟨b.var, .positive⟩]) ∧
    ∃ c ∈ b.allClauses, c.lits = [⟨b.var, .negative⟩]

/-- The buckets of all variables that are eliminated before `v` have no clauses. -/
def Row.EmptyBefore (order : Order) (v : Var) (r : Row) : Prop :=
  ∀ w b, order.precedes w v = true → r.get w = .ok b → b.allClauses = []

/-- The clauses mention only variables for which the row has buckets. -/
def Row.Covers (r : Row) (clauses : List Clause) : Prop :=
  ∀ c ∈ clauses, ∀ l ∈ c.lits, l.var.index < r.size

/-! ## Units -/

section

variable {order : Order} {bucket : Bucket}

/-- A unit is stored on the side of its polarity. -/
theorem Bucket.WellFormed.unit_mem (h : bucket.WellFormed) {c : Clause} {p : Polarity}
    (hc : c ∈ bucket.allClauses) (hunit : c.lits = [⟨bucket.var, p⟩]) : c ∈ bucket.clauses p := by
  have hp : bucket.order.pivot? c.lits = some ⟨bucket.var, p⟩ := by
    rw [hunit]
    cases bucket.order <;> rfl
  exact h.mem_clauses_iff.2 ⟨hc, hp⟩

/-- Some pair of clauses of the bucket resolves to the empty clause exactly if both units are
there. -/
theorem Bucket.WellFormed.refutes_iff (h : bucket.WellFormed) :
    Refutes bucket.order (bucket.clauses .positive) (bucket.clauses .negative) ↔
      bucket.HasUnits := by
  rw [(h.pivotsOn .positive).refutes_iff (h.pivotsOn .negative)]
  constructor
  · intro hunits
    obtain ⟨⟨p, hp, hpu⟩, ⟨n, hn, hnu⟩⟩ := hunits
    exact ⟨⟨p, Bucket.mem_allClauses.2 ⟨_, hp⟩, hpu⟩, ⟨n, Bucket.mem_allClauses.2 ⟨_, hn⟩, hnu⟩⟩
  · intro hunits
    obtain ⟨⟨p, hp, hpu⟩, ⟨n, hn, hnu⟩⟩ := hunits
    exact ⟨⟨p, h.unit_mem hp hpu, hpu⟩, ⟨n, h.unit_mem hn hnu, hnu⟩⟩

/-- Nothing satisfies both units. -/
theorem Bucket.HasUnits.not_satisfiedBy {r : Row} {v : Var} (h : bucket.HasUnits)
    (hget : r.get v = .ok bucket) (a : Assignment) : ¬ r.SatisfiedBy a := by
  intro hsat
  obtain ⟨⟨p, hp, hpu⟩, ⟨n, hn, hnu⟩⟩ := h
  have hmem : ∀ c ∈ bucket.allClauses, c ∈ r.clauses := fun c hc =>
    Row.mem_clauses_iff.2 ⟨_, bucket, Row.get_eq_ok_iff.1 hget, hc⟩
  have hp := hsat p (hmem p hp)
  have hn := hsat n (hmem n hn)
  simp only [hpu, hnu, Assignment.satisfies, Assignment.holds, List.any_cons, List.any_nil,
    Bool.or_false, beq_iff_eq] at hp hn
  rw [hp] at hn
  cases hn

end

/-! ## Clauses of other buckets -/

namespace Row

variable {order : Order} {r : Row} {v : Var} {bucket : Bucket}

/-- A clause outside the bucket of `v` does not mention `v`, if the earlier buckets are empty. -/
theorem WellFormed.precedes_of_not_mem (h : r.WellFormed order) (hget : r.get v = .ok bucket)
    (hbefore : r.EmptyBefore order v) {c : Clause} (hc : c ∈ r.clauses)
    (hnot : c ∉ bucket.allClauses) : ∀ l ∈ c.lits, order.precedes v l.var = true := by
  obtain ⟨w, p, b, hpivot, hw, hcb⟩ := h.exists_pivot hc
  -- the pivot's variable comes after `v`, and all others of the clause after it
  have hlater : order.precedes v w = true := by
    rcases order.precedes_or_eq_or_precedes v w with hvw | rfl | hwv
    · exact hvw
    · rw [hget] at hw
      cases hw
      exact absurd (Bucket.mem_allClauses.2 ⟨p, hcb⟩) hnot
    · have hempty := hbefore w b hwv hw
      have hmem : c ∈ b.allClauses := Bucket.mem_allClauses.2 ⟨p, hcb⟩
      rw [hempty] at hmem
      cases hmem
  intro l hl
  rcases (Order.mem_iff_pivot_or_rest hpivot l).1 hl with rfl | hl
  · exact hlater
  · exact Order.precedes_trans hlater (Order.precedes_of_mem_rest c.canonical hpivot hl)

/-- The clauses outside the bucket of `v` do not depend on the value of `v`. -/
theorem WellFormed.satisfies_update (h : r.WellFormed order) (hget : r.get v = .ok bucket)
    (hbefore : r.EmptyBefore order v) {c : Clause} (hc : c ∈ r.clauses)
    (hnot : c ∉ bucket.allClauses) (a : Assignment) (value : Bool) :
    (a.update v value).satisfies c.lits = a.satisfies c.lits :=
  Assignment.satisfies_update_of_not_mentioned fun l hl =>
    (Order.ne_of_precedes (h.precedes_of_not_mem hget hbefore hc hnot l hl)).symm

end Row

/-! ## Quantification -/

namespace Machine

variable {config : Config} {step : Nat} {v : Var} {m m' : Machine} {bucket : Bucket}

/-- The row without the variable is satisfied exactly if the row before is, for some value of the
variable. -/
theorem Eliminated.satisfiedBy_iff {order : Order} {s s' : Sweep}
    (h : Eliminated order bucket s s') (hrow : s.row.WellFormed order)
    (hget : s.row.get v = .ok bucket) (hbefore : s.row.EmptyBefore order v) (a : Assignment) :
    s'.row.SatisfiedBy a ↔
      s.row.SatisfiedBy (a.update v true) ∨ s.row.SatisfiedBy (a.update v false) := by
  obtain ⟨hwf, rfl, rfl⟩ := hrow.get hget
  have hmem : ∀ c ∈ bucket.allClauses, c ∈ s.row.clauses := fun c hc =>
    Row.mem_clauses_iff.2 ⟨_, bucket, Row.get_eq_ok_iff.1 hget, hc⟩
  -- the bucket's clauses are quantified away by their resolvents
  have hbucket := PivotsOn.exists_update_iff (hwf.pivotsOn .positive) (hwf.pivotsOn .negative)
    (fun p hp n hn hempty => h.not_refutes ⟨p, hp, n, hn, hempty⟩) a
  have hsplit : ∀ value, s.row.SatisfiedBy (a.update bucket.var value) ↔
      (∀ c ∈ s.row.clauses, c ∉ bucket.allClauses → a.satisfies c.lits = true) ∧
        ∀ c, c ∈ bucket.clauses .positive ∨ c ∈ bucket.clauses .negative →
          (a.update bucket.var value).satisfies c.lits = true := by
    intro value
    have hside : ∀ c, c ∈ bucket.allClauses ↔
        c ∈ bucket.clauses .positive ∨ c ∈ bucket.clauses .negative := by
      intro c
      rw [Bucket.allClauses_eq, List.mem_append]
    constructor
    · intro hsat
      refine ⟨fun c hc hnot => ?_, fun c hc => hsat c (hmem c ((hside c).2 hc))⟩
      rw [← hrow.satisfies_update hget hbefore hc hnot a value]
      exact hsat c hc
    · rintro ⟨hothers, hown⟩ c hc
      by_cases hcb : c ∈ bucket.allClauses
      · exact hown c ((hside c).1 hcb)
      · rw [hrow.satisfies_update hget hbefore hc hcb a value]
        exact hothers c hc hcb
  have hafter : s'.row.SatisfiedBy a ↔
      (∀ c ∈ s.row.clauses, c ∉ bucket.allClauses → a.satisfies c.lits = true) ∧
        ∀ p ∈ bucket.clauses .positive, ∀ n ∈ bucket.clauses .negative, ∀ lits,
          resolve bucket.order p.lits n.lits = .ok (.clause lits) → a.satisfies lits = true := by
    constructor
    · intro hsat
      refine ⟨fun c hc hnot => hsat c ((h.mem_clauses c).2 (.inl ⟨hc, hnot⟩)), ?_⟩
      intro p hp n hn lits hr
      obtain ⟨r, hr', hof⟩ := (hwf.pivotsOn .positive).resolves (hwf.pivotsOn .negative) hp hn
      rw [hr] at hr'
      cases hr'
      exact hsat ⟨lits, hof.1⟩ ((h.mem_clauses _).2 (.inr (mem_resolvents.2 ⟨p, hp, n, hn, hr⟩)))
    · rintro ⟨hothers, hresolvents⟩ c hc
      rcases (h.mem_clauses c).1 hc with ⟨hc, hnot⟩ | hc
      · exact hothers c hc hnot
      · obtain ⟨p, hp, n, hn, hr⟩ := mem_resolvents.1 hc
        exact hresolvents p hp n hn c.lits hr
  rw [hafter, ← hbucket, hsplit, hsplit]
  constructor
  · rintro ⟨hothers, value, hown⟩
    cases value with
    | true => exact .inl ⟨hothers, hown⟩
    | false => exact .inr ⟨hothers, hown⟩
  · rintro (⟨hothers, hown⟩ | ⟨hothers, hown⟩)
    · exact ⟨hothers, true, hown⟩
    · exact ⟨hothers, false, hown⟩

/-- What a result says about the units of the variable. -/
theorem Eliminates.hasUnits_iff {refuted : Bool} (hidle : m.Idle)
    (hrow : m.sweep.row.WellFormed config.order) (hget : m.sweep.row.get v = .ok bucket)
    (he : Eliminates config step v m m' (.ok refuted)) : refuted = true ↔ bucket.HasUnits := by
  obtain ⟨hwf, horder, -⟩ := hrow.get hget
  have hachieves := he.achieves hidle hrow hget
  rw [← hwf.refutes_iff, horder]
  cases refuted with
  | true => exact ⟨fun _ => hachieves, fun _ => rfl⟩
  | false => exact ⟨nofun, fun hrefutes => absurd hrefutes hachieves.not_refutes⟩

end Machine

/-! ## Two units, and a unit that is derived -/

namespace Bucket

variable {v : Var} {order : Order} {capacity : Capacity} {stored : List (Clause × Polarity)}

end Bucket

namespace Machine

variable {size : Nat} {capacity : Capacity} {stored : List (Clause × Polarity)}

end Machine

end BucketElimination
