import BucketElimination.Proofs.BucketStacks
import BucketElimination.Proofs.VisitingOrder
set_option autoImplicit false

/-!
# Room for the resolvents of a bucket

Before the clauses of a bucket are resolved, room is reserved once for all resolvents: the longest
lengths of both sides together, less the two pivots.  This is enough for each of them, and for what
was written of one that turned out to be a tautology.  The longest lengths count every clause that was
ever stored, so they may be more than the clauses at hand need, but they are never less.

The bound holds of `Built` buckets.  If these were united out of buckets with different orders, there
may be clauses whose pivots do not clash; such clauses are refused before anything is written.
-/

namespace BucketElimination

/-! ## What merging writes -/

/-- A merge writes each literal of the two lists once at most, wherever it stops. -/
theorem length_written_mergeLits_le (xs ys : List Lit) :
    (mergeLits xs ys).written.length ≤ xs.length + ys.length := by
  fun_induction mergeLits xs ys with
  | case1 ys => simp [Resolvent.written]
  | case2 xs => simp [Resolvent.written]
  | case3 x xs y ys hlt ih =>
    simp only [Resolvent.written_push, List.length_cons] at ih ⊢
    omega
  | case4 x xs y ys hgt ih =>
    simp only [Resolvent.written_push, List.length_cons] at ih ⊢
    omega
  | case5 x xs ys heq ih =>
    simp only [Resolvent.written_push, List.length_cons] at ih ⊢
    omega
  | case6 x xs y ys heq hne => exact Nat.zero_le _

theorem Order.length_rest (order : Order) (lits : List Lit) :
    (order.rest lits).length = lits.length - 1 := by
  cases order with
  | descending => exact List.length_dropLast
  | ascending => exact List.length_tail

/-- Resolving two lists either writes no more than their literals without the pivots, or is refused
since the pivots are not complementary. -/
theorem resolve_cases (order : Order) {positive negative : List Lit} (hp : positive ≠ [])
    (hn : negative ≠ []) :
    match resolve order positive negative with
    | .ok r => r.written.length + 2 ≤ positive.length + negative.length
    | .error f => f = .pivotsDoNotClash ∧
        order.pivot? positive ≠ (order.pivot? negative).map Lit.negate := by
  obtain ⟨p, hpivot⟩ := order.exists_pivot hp
  obtain ⟨n, hpivot'⟩ := order.exists_pivot hn
  have hpos : 0 < positive.length := List.length_pos_iff.2 hp
  have hpos' : 0 < negative.length := List.length_pos_iff.2 hn
  simp only [resolve, hpivot, hpivot']
  by_cases hclash : p = n.negate
  · have hmerge := length_written_mergeLits_le (order.rest positive) (order.rest negative)
    rw [order.length_rest, order.length_rest] at hmerge
    rw [if_pos hclash]
    split
    · rename_i r heq
      split at heq
      · cases heq
        show 0 + 2 ≤ _
        omega
      · cases heq
        omega
    · rename_i f heq
      split at heq <;> cases heq
  · rw [if_neg hclash]
    refine ⟨rfl, ?_⟩
    intro heq
    exact hclash (Option.some.inj heq)

namespace Bucket

/-! ## The reservation -/

/-- The room that is reserved for the resolvents of a bucket. -/
def resolventRoom (b : Bucket) : Nat := b.maxLength .positive + b.maxLength .negative - 2

/-- A stored clause has a literal, and no more of them than the longest clause of its side. -/
theorem Sided.length_bounds {b : Bucket} (h : b.Sided) {p : Polarity} {c : Clause}
    (hc : c ∈ b.clauses p) : c.lits ≠ [] ∧ c.lits.length ≤ b.maxLength p := by
  rw [h.clauses_eq] at hc
  exact ⟨List.ne_nil_of_mem (h.mem_lits p c hc), (h.side p).length_le_maxLength c hc⟩

/-- If all clauses of a bucket were filed under one order, the pivots of its sides clash. -/
theorem Reachable.pivots_clash {v : Var} {order : Order} {b : Bucket} (h : b.Reachable v order)
    {p n : Clause} (hp : p ∈ b.clauses .positive) (hn : n ∈ b.clauses .negative) :
    b.order.pivot? p.lits = (b.order.pivot? n.lits).map Lit.negate := by
  obtain ⟨hwf, -, -⟩ := h.wellFormed
  rw [hwf.pivot_of_mem hp, hwf.pivot_of_mem hn]
  rfl

/-- The reserved room is not cut short, and whatever resolving a positive and a negative clause of the
bucket leaves in the buffer fits into it, also the beginning of a tautology.  Clauses are refused only
if their pivots do not clash, which cannot be if all were filed under one order. -/
theorem Built.resolvents_fit {v : Var} {b : Bucket} (h : b.Built v) {p n : Clause}
    (hp : p ∈ b.clauses .positive) (hn : n ∈ b.clauses .negative) :
    2 ≤ b.maxLength .positive + b.maxLength .negative ∧
      (match resolve b.order p.lits n.lits with
        | .ok r => r.written.length ≤ b.resolventRoom ∧
            ∀ buffer, resolveInto b.order p.lits n.lits buffer = .ok (r.kind, r.written.toArray)
        | .error f => f = .pivotsDoNotClash ∧
            b.order.pivot? p.lits ≠ (b.order.pivot? n.lits).map Lit.negate) ∧
      ∀ order, b.Reachable v order → ∃ r, resolve b.order p.lits n.lits = .ok r := by
  obtain ⟨hsided, -⟩ := h.sided
  obtain ⟨hpne, hple⟩ := hsided.length_bounds hp
  obtain ⟨hnne, hnle⟩ := hsided.length_bounds hn
  have hppos : 0 < p.lits.length := List.length_pos_iff.2 hpne
  have hnpos : 0 < n.lits.length := List.length_pos_iff.2 hnne
  have hcases := resolve_cases b.order hpne hnne
  refine ⟨by omega, ?_, ?_⟩
  · cases hr : resolve b.order p.lits n.lits with
    | error f =>
      rw [hr] at hcases
      exact hcases
    | ok r =>
      rw [hr] at hcases
      have hfits : r.written.length ≤ b.resolventRoom := by
        show _ ≤ _ - 2
        simp only at hcases
        omega
      refine ⟨hfits, fun buffer => ?_⟩
      rw [resolveInto_eq, hr]
      rfl
  · intro order hreachable
    cases hr : resolve b.order p.lits n.lits with
    | error f =>
      rw [hr] at hcases
      exact absurd (hreachable.pivots_clash hp hn) hcases.2
    | ok r => exact ⟨r, rfl⟩

/-- The third variable. -/
def thirdVar : Var := (litOf 3).var

/-- A clause of three variables; the two of them clash on the second variable besides the pivot. -/
def clashingClause (p : Polarity) : Clause :=
  ⟨[litOf 1, ⟨pivotVar, p⟩, ⟨thirdVar, p⟩], by cases p <;> rfl⟩

/-- A bucket with both of these clauses. -/
def clashingBucket : Bucket :=
  (((empty thirdVar .descending .standard).store (clashingClause .positive)
    ⟨thirdVar, .positive⟩).1.store (clashingClause .negative) ⟨thirdVar, .negative⟩).1

theorem reachable_clashingBucket : clashingBucket.Reachable thirdVar .descending := by
  have hempty : (empty thirdVar .descending .standard).Reachable thirdVar .descending :=
    .empty _ rfl
  have hfirst := hempty.add
    (rfl : Bucket.add _ (clashingClause .positive) .positive = .ok (_, true))
  exact hfirst.add
    (rfl : Bucket.add _ (clashingClause .negative) .negative = .ok (clashingBucket, true))

/-- The theorem on two clauses that resolve to a tautology: the literal that was written before the
clash has room. -/
theorem resolvents_fit_clashingBucket :
    clashingBucket.Built thirdVar ∧ clashingClause .positive ∈ clashingBucket.clauses .positive ∧
      clashingClause .negative ∈ clashingBucket.clauses .negative ∧
      resolveInto .descending (clashingClause .positive).lits (clashingClause .negative).lits #[] =
        .ok (.tautology, #[litOf 1]) ∧
      [litOf 1].length ≤ clashingBucket.resolventRoom := by
  have hbuilt := reachable_clashingBucket.built
  have hp : clashingClause .positive ∈ clashingBucket.clauses .positive := by decide +kernel
  have hn : clashingClause .negative ∈ clashingBucket.clauses .negative := by decide +kernel
  obtain ⟨-, hfits, -⟩ := hbuilt.resolvents_fit hp hn
  have hresolve : resolve clashingBucket.order (clashingClause .positive).lits
      (clashingClause .negative).lits = .ok (.tautology [litOf 1]) := by decide +kernel
  rw [hresolve] at hfits
  obtain ⟨hroom, hinto⟩ := hfits
  exact ⟨hbuilt, hp, hn, hinto #[], hroom⟩

end Bucket

end BucketElimination
