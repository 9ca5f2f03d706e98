import BucketElimination.Proofs.FormulaClauses
import BucketElimination.Proofs.SweepAgreement
import BucketElimination.Solver
set_option autoImplicit false

/-!
# Loading: the buckets stand for the clauses that were added

Loading a clause into a row with buckets for its variables leaves out a tautology, notices a clause
without literals, and files any other clause in canonical form, so that the row asks of an
assignment what the clause asks besides what it asked before.
-/

namespace BucketElimination

/-! ## Rows -/

namespace Row

variable {order : Order} {r : Row}

/-- An empty bucket for the next variable is appended. -/
theorem WellFormed.push (h : r.WellFormed order) {v : Var} (hv : v.index = r.size)
    (capacity : Capacity) :
    WellFormed order ⟨r.buckets.push (Bucket.empty v order capacity)⟩ ∧
      clauses ⟨r.buckets.push (Bucket.empty v order capacity)⟩ = r.clauses := by
  constructor
  · intro i b hb
    simp only [Array.getElem?_push] at hb
    split at hb
    · rename_i hi
      cases hb
      exact ⟨Bucket.wellFormed_empty _ _ _, rfl, hv.trans hi.symm⟩
    · exact h i b hb
  · have hempty : (Bucket.empty v order capacity).allClauses = [] := rfl
    simp only [clauses, Array.toList_push, List.flatMap_append, List.flatMap_cons, List.flatMap_nil,
      hempty, List.append_nil]

/-- Growing appends empty buckets, as many as are asked for while there are variables. -/
theorem WellFormed.extend (h : r.WellFormed order) (capacity : Capacity) (n : Nat) :
    (r.extend order capacity n).WellFormed order ∧
      (r.extend order capacity n).clauses = r.clauses ∧
      r.size ≤ (r.extend order capacity n).size ∧
      (r.size + n ≤ Var.maxNumber → (r.extend order capacity n).size = r.size + n) := by
  induction n generalizing r with
  | zero => exact ⟨h, rfl, Nat.le_refl _, fun _ => rfl⟩
  | succ n ih =>
    unfold Row.extend
    cases hv : Var.ofIndex? r.size with
    | none =>
      refine ⟨h, rfl, Nat.le_refl _, fun hle => ?_⟩
      rw [Var.ofIndex?, Var.ofNumber?_eq_none_iff] at hv
      omega
    | some v =>
      obtain ⟨hwf, hclauses⟩ := h.push (Var.index_of_ofIndex? hv) capacity
      obtain ⟨hwf', hclauses', hle, hsize⟩ := ih hwf
      have hpush : size ⟨r.buckets.push (Bucket.empty v order capacity)⟩ = r.size + 1 := by
        simp [size]
      simp only [hpush] at hle hsize ⊢
      refine ⟨hwf', hclauses'.trans hclauses, by omega, fun hmax => ?_⟩
      rw [hsize (by omega)]
      omega

/-- Filing a clause stores it in the bucket of its pivot. -/
theorem WellFormed.file_eq (h : r.WellFormed order) {v : Var} {b : Bucket} (hget : r.get v = .ok b)
    {c : Clause} {p : Polarity} (hpivot : order.pivot? c.lits = some ⟨v, p⟩) :
    r.file order c = (r.set v (b.store c ⟨v, p⟩).1, .ok (b.store c ⟨v, p⟩).2) := by
  obtain ⟨-, rfl, rfl⟩ := h.get hget
  have hon : b.pivotOn c p = .ok ⟨b.var, p⟩ := Bucket.pivotOn_eq_ok_iff.2 ⟨rfl, hpivot⟩
  simp only [Row.file, hpivot, Row.add, hget, Except.bind, hon, update_eq]

/-- A clause over variables of the row has a bucket to be filed in. -/
theorem exists_get_of_pivot {c : Clause} (hne : c.lits ≠ [])
    (hlt : ∀ l ∈ c.lits, l.var.index < r.size) (order : Order) :
    ∃ v p b, order.pivot? c.lits = some ⟨v, p⟩ ∧ r.get v = .ok b := by
  cases hpivot : order.pivot? c.lits with
  | none => exact absurd (Order.pivot?_eq_none_iff.1 hpivot) hne
  | some l =>
    obtain ⟨b, hget⟩ := exists_get_of_lt (hlt l (Order.pivot_mem hpivot))
    exact ⟨l.var, l.polarity, b, rfl, hget⟩

/-- A clause over variables of the row is filed in the bucket of its pivot. -/
theorem WellFormed.file (h : r.WellFormed order) {c : Clause} (hne : c.lits ≠ [])
    (hlt : ∀ l ∈ c.lits, l.var.index < r.size) :
    ∃ r' new, r.file order c = (r', .ok new) ∧ r'.WellFormed order ∧ r'.size = r.size ∧
      ∀ d, d ∈ r'.clauses ↔ d ∈ r.clauses ∨ d = c := by
  obtain ⟨v, p, b, hpivot, hget⟩ := exists_get_of_pivot hne hlt order
  have hfile := h.file_eq hget hpivot
  obtain ⟨hwf, rfl, rfl⟩ := h.get hget
  obtain ⟨hwf', hvar', horder', -⟩ := hwf.store hpivot
  have hstore := (hwf.allClauses_store hpivot).1
  refine ⟨_, _, hfile, h.set hwf' horder' hvar', size_set _ _ _, fun d => ?_⟩
  rw [h.mem_clauses_set hget, hstore]
  have hsub : d ∈ b.allClauses → d ∈ r.clauses := fun hd =>
    mem_clauses_iff.2 ⟨_, b, get_eq_ok_iff.1 hget, hd⟩
  by_cases hd : d ∈ b.allClauses
  · simp [hd, hsub hd]
  · simp [hd, or_comm]

/-- What loading a clause over variables of the row does. -/
structure LoadOf (order : Order) (lits : List Lit) (r r' : Row) (loaded : Loaded) : Prop where
  wellFormed : r'.WellFormed order
  size_eq : r'.size = r.size
  covers : r.Covers r.clauses → r'.Covers r'.clauses
  /-- Only a clause without literals is reported as empty. -/
  of_empty : loaded = .empty → ∀ a : Assignment, a.satisfies lits = false
  satisfiedBy_iff : loaded ≠ .empty →
    ∀ a, r'.SatisfiedBy a ↔ r.SatisfiedBy a ∧ a.satisfies lits = true

/-- Loading a clause over variables of the row never faults. -/
theorem WellFormed.load (h : r.WellFormed order) {lits : List Lit}
    (hlt : ∀ l ∈ lits, l.var.index < r.size) :
    ∃ r' loaded, r.load order lits = (r', .ok loaded) ∧ LoadOf order lits r r' loaded := by
  unfold Row.load
  cases hcanonical : canonicalize lits with
  | none =>
    refine ⟨r, .tautology, rfl, h, rfl, id, nofun, fun _ a => ?_⟩
    simp [Assignment.satisfies_of_canonicalize_eq_none hcanonical a]
  | some canonical =>
    obtain ⟨hc, hmem⟩ := canonicalize_eq_some hcanonical
    have hsat := Assignment.satisfies_of_canonicalize_eq_some hcanonical
    cases canonical with
    | nil => exact ⟨r, .empty, rfl, h, rfl, id, fun _ a => (hsat a).symm, fun hne => absurd rfl hne⟩
    | cons l ls =>
      obtain ⟨c, hclause⟩ : ∃ c : Clause, c.lits = l :: ls := ⟨⟨l :: ls, hc⟩, rfl⟩
      rw [← hclause] at hmem hsat ⊢
      have hlt' : ∀ x ∈ c.lits, x.var.index < r.size := fun x hx => hlt x ((hmem x).1 hx)
      obtain ⟨r', new, hfile, hwf, hsize, hclauses⟩ := h.file (by rw [hclause]; simp) hlt'
      have hload : LoadOf order lits r r' (if new then .filed else .duplicate) := by
        refine ⟨hwf, hsize, fun hcovers d hd x hx => ?_, fun he => ?_, fun _ a => ?_⟩
        · rw [hsize]
          rcases (hclauses d).1 hd with hd | rfl
          · exact hcovers d hd x hx
          · exact hlt' x hx
        · cases new <;> cases he
        · rw [← hsat]
          constructor
          · intro hall
            exact ⟨fun d hd => hall d ((hclauses d).2 (.inl hd)),
              hall c ((hclauses c).2 (.inr rfl))⟩
          · rintro ⟨hall, hself⟩ d hd
            rcases (hclauses d).1 hd with hd | rfl
            · exact hall d hd
            · exact hself
      refine ⟨r', _, ?_, hload⟩
      simp only [hclause]
      rw [← hclause]
      simp only [Clause.ofLits_lits, hfile]
      cases new <;> rfl

end Row

end BucketElimination
