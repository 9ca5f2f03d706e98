import BucketElimination.Proofs.ExactElimination
import BucketElimination.Proofs.VisitingOrder
set_option autoImplicit false

/-!
# The verdict of a sweep

Before each step of a sweep the buckets of all earlier steps are empty, so each elimination
quantifies its variable away, and the row can be satisfied exactly if the one before can.  After the
last step no clause is left.  So the verdict of a sweep says whether some assignment satisfies the
row, under every schedule.
-/

namespace BucketElimination

/-! ## Cleared buckets -/

/-- The buckets of the first `step` steps have no clauses. -/
def Row.Cleared (order : Order) (step : Nat) (r : Row) : Prop :=
  ∀ w b, r.get w = .ok b → order.stepOf r.size w < step → b.allClauses = []

namespace Row

variable {order : Order} {step : Nat} {r : Row} {v : Var}

theorem cleared_zero (order : Order) (r : Row) : r.Cleared order 0 := fun _ _ _ h =>
  absurd h (Nat.not_lt_zero _)

theorem Cleared.emptyBefore (h : r.Cleared order step)
    (hvar : order.varAt? step r.size = some v) : r.EmptyBefore order v := by
  intro w b hwv hget
  refine h w b hget ?_
  rw [← Order.stepOf_of_varAt? hvar]
  exact (Order.stepOf_lt_iff (Row.lt_size_of_get hget) (Order.index_lt_of_varAt? hvar)).2 hwv

/-- After all steps no clause is left. -/
theorem Cleared.clauses_eq_nil (h : r.Cleared order r.size) (hwf : r.WellFormed order) :
    r.clauses = [] := by
  refine List.eq_nil_iff_forall_not_mem.2 fun c hc => ?_
  obtain ⟨w, p, b, -, hget, hcb⟩ := hwf.exists_pivot hc
  have hempty := h w b hget (Order.stepOf_lt (Row.lt_size_of_get hget))
  have hmem : c ∈ b.allClauses := Bucket.mem_allClauses.2 ⟨p, hcb⟩
  rw [hempty] at hmem
  cases hmem

end Row

namespace Machine

/-- Eliminating the variable of a step clears its bucket, and resolvents go to later ones. -/
theorem Eliminated.cleared {order : Order} {step : Nat} {s s' : Sweep} {v : Var} {bucket : Bucket}
    (h : Eliminated order bucket s s') (hrow : s.row.WellFormed order)
    (hget : s.row.get v = .ok bucket) (hvar : order.varAt? step s.row.size = some v)
    (hcleared : s.row.Cleared order step) : s'.row.Cleared order (step + 1) := by
  obtain ⟨hwf, horder, hbucket⟩ := hrow.get hget
  have hbefore := hcleared.emptyBefore hvar
  -- every clause that is left is over later variables
  have hlater : ∀ c ∈ s'.row.clauses, ∀ l ∈ c.lits, order.precedes v l.var = true := by
    intro c hc l hl
    rcases (h.mem_clauses c).1 hc with ⟨hc, hnot⟩ | hc
    · exact hrow.precedes_of_not_mem hget hbefore hc hnot l hl
    · obtain ⟨p, hp, n, hn, hr⟩ := mem_resolvents.1 hc
      have hpp := hwf.pivot_of_mem hp
      have hnn := hwf.pivot_of_mem hn
      rw [horder, hbucket] at hpp hnn
      exact (Task.resolvent_later hpp hnn hr).2 l hl
  intro w b hw hstep
  refine List.eq_nil_iff_forall_not_mem.2 fun c hc => ?_
  obtain ⟨hbwf, hborder, hbvar⟩ := h.wellFormed.get hw
  obtain ⟨p, hp⟩ := Bucket.mem_allClauses.1 hc
  have hpivot := Order.pivot_mem (hbwf.pivot_of_mem hp)
  have hmem : c ∈ s'.row.clauses := Row.mem_clauses_iff.2 ⟨_, b, Row.get_eq_ok_iff.1 hw, hc⟩
  have hprecedes : order.precedes v w = true := hbvar ▸ hlater c hmem _ hpivot
  have hlt := (Order.stepOf_lt_iff (Row.lt_size_of_get hget)
    (h.size_eq ▸ Row.lt_size_of_get hw)).2 hprecedes
  rw [Order.stepOf_of_varAt? hvar] at hlt
  rw [h.size_eq] at hstep
  omega

/-- The verdict of a sweep says whether some assignment satisfies the row. -/
theorem Sweeps.verdict_iff {config : Config} {varCount left : Nat} {m m' : Machine}
    {result : Except Fault Verdict} (h : Sweeps config varCount left m m' result) (hidle : m.Idle)
    (hrow : m.sweep.row.WellFormed config.order) (hsize : m.sweep.row.size = varCount)
    (hleft : left ≤ varCount) (hcleared : m.sweep.row.Cleared config.order (varCount - left))
    (verdict : Verdict) (hresult : result = .ok verdict) :
    verdict = .sat ↔ ∃ a, m.sweep.row.SatisfiedBy a := by
  induction h with
  | sat m =>
    cases hresult
    refine ⟨fun _ => ⟨fun _ => true, fun c hc => ?_⟩, fun _ => rfl⟩
    have hnil : m.sweep.row.clauses = [] := by
      refine Row.Cleared.clauses_eq_nil ?_ hrow
      rw [hsize]
      exact hcleared
    rw [hnil] at hc
    cases hc
  | noVar m hvar => cases hresult
  | fault hvar he => cases hresult
  | unsat hvar he =>
    cases hresult
    obtain ⟨b, hget⟩ := Row.exists_get_of_lt (hsize ▸ Order.index_lt_of_varAt? hvar)
    have hunits := (he.hasUnits_iff hidle hrow hget).1 rfl
    exact ⟨nofun, fun ⟨a, ha⟩ => absurd ha (hunits.not_satisfiedBy hget a)⟩
  | @next left v m m₁ m' result hvar he _ ih =>
    obtain ⟨b, hget⟩ := Row.exists_get_of_lt (hsize ▸ Order.index_lt_of_varAt? hvar)
    have heliminated : Eliminated config.order b _ _ := he.achieves hidle hrow hget
    have hvar' : config.order.varAt? (varCount - (left + 1)) m.sweep.row.size = some v := by
      rw [hsize]
      exact hvar
    have hcleared' := heliminated.cleared hrow hget hvar' hcleared
    have hstep : varCount - (left + 1) + 1 = varCount - left := by omega
    rw [hstep] at hcleared'
    rw [ih (hidle.of_eliminates he).1 heliminated.wellFormed (heliminated.size_eq.trans hsize)
      (Nat.le_of_succ_le hleft) hcleared' hresult]
    have hiff := heliminated.satisfiedBy_iff hrow hget (hcleared.emptyBefore hvar')
    constructor
    · rintro ⟨a, ha⟩
      rcases (hiff a).1 ha with ha | ha
      · exact ⟨_, ha⟩
      · exact ⟨_, ha⟩
    · rintro ⟨a, ha⟩
      -- the assignment gives the variable one of the two values
      refine ⟨a, (hiff a).2 ?_⟩
      have hself : ∀ value, a v = value → a.update v value = a := by
        intro value hvalue
        funext w
        by_cases hw : w = v
        · rw [hw, Assignment.update_self, hvalue]
        · exact Assignment.update_of_ne a hw value
      cases hv : a v with
      | true => exact .inl (by rwa [hself true hv])
      | false => exact .inr (by rwa [hself false hv])

end Machine

end BucketElimination
