import BucketElimination.Proofs.Resolvents
set_option autoImplicit false

/-!
# Quantification: resolvents in place of a variable

Replacing all clauses with a pivot variable by their resolvents removes the variable from the
formula by existential quantification: an assignment satisfies the resolvents exactly if it can be
made to satisfy the clauses by choosing a value for the variable.  Where two units of the variable
clash, no assignment satisfies the clauses.
-/

namespace BucketElimination

namespace Assignment

/-- A clause that does not mention a variable does not depend on its value. -/
theorem satisfies_update_of_not_mentioned {a : Assignment} {v : Var} {value : Bool}
    {lits : List Lit} (h : ∀ l ∈ lits, l.var ≠ v) :
    (a.update v value).satisfies lits = a.satisfies lits := by
  have hholds : ∀ l ∈ lits, (a.update v value).holds l = a.holds l := by
    intro l hl
    simp only [holds, update_of_ne a (h l hl)]
  rw [Bool.eq_iff_iff, satisfies_iff, satisfies_iff]
  constructor
  · rintro ⟨l, hl, hh⟩
    exact ⟨l, hl, hholds l hl ▸ hh⟩
  · rintro ⟨l, hl, hh⟩
    exact ⟨l, hl, (hholds l hl).symm ▸ hh⟩

/-- A clause with a pivot holds if the pivot gets the value that it asks for, or if its rest
holds anyway. -/
theorem satisfies_update_of_pivot {order : Order} {lits : List Lit} {v : Var} {p : Polarity}
    (hc : isCanonical lits = true) (hp : order.pivot? lits = some ⟨v, p⟩) (a : Assignment)
    (value : Bool) :
    (a.update v value).satisfies lits = true ↔
      value = p.toBool ∨ a.satisfies (order.rest lits) = true := by
  have hrest : (a.update v value).satisfies (order.rest lits) = a.satisfies (order.rest lits) :=
    satisfies_update_of_not_mentioned fun l hl => Order.var_ne_of_mem_rest hc hp hl
  have hpivot : (a.update v value).holds ⟨v, p⟩ = true ↔ value = p.toBool := by
    simp [holds]
  rw [← hrest, ← hpivot, satisfies_iff, satisfies_iff]
  constructor
  · rintro ⟨l, hl, hh⟩
    rcases (Order.mem_iff_pivot_or_rest hp l).1 hl with rfl | hl
    · exact .inl hh
    · exact .inr ⟨l, hl, hh⟩
  · rintro (hh | ⟨l, hl, hh⟩)
    · exact ⟨_, Order.pivot_mem hp, hh⟩
    · exact ⟨l, Order.mem_of_mem_rest hl, hh⟩

end Assignment

/-! ## Clauses on both sides of a variable -/

section Sides

variable {order : Order} {v : Var} {positives negatives : List Clause}

/-- All clauses have the literal of `v` with the given polarity as pivot. -/
def PivotsOn (order : Order) (v : Var) (p : Polarity) (clauses : List Clause) : Prop :=
  ∀ c ∈ clauses, order.pivot? c.lits = some ⟨v, p⟩

/-- What resolving a clause of the positive side with one of the negative side gives. -/
theorem PivotsOn.resolves (hp : PivotsOn order v .positive positives)
    (hn : PivotsOn order v .negative negatives) {p n : Clause} (hpm : p ∈ positives)
    (hnm : n ∈ negatives) :
    ∃ r, resolve order p.lits n.lits = .ok r ∧ r.Of order p.lits n.lits ⟨v, .positive⟩ :=
  resolve_of_pivots p.canonical n.canonical (hp p hpm) (hn n hnm)

/-- Two clauses resolve to the empty clause exactly if both are units. -/
theorem PivotsOn.resolve_eq_empty_iff (hp : PivotsOn order v .positive positives)
    (hn : PivotsOn order v .negative negatives) {p n : Clause} (hpm : p ∈ positives)
    (hnm : n ∈ negatives) :
    resolve order p.lits n.lits = .ok .empty ↔
      p.lits = [⟨v, .positive⟩] ∧ n.lits = [⟨v, .negative⟩] := by
  obtain ⟨r, hr, hof⟩ := hp.resolves hn hpm hnm
  rw [hr, Except.ok.injEq, Resolvent.eq_empty_iff_kind]
  exact hof.kind_eq_empty_iff (hp p hpm) (hn n hnm)

/-- If every literal of a remainder is false, what the resolvent asks is asked of the other
remainder. -/
theorem Resolvent.Of.satisfies_rest {p n : List Lit} {l : Lit} {r : Resolvent} {a : Assignment}
    (h : r.Of order p n l) (hne : r ≠ .empty)
    (hr : ∀ lits, r = .clause lits → a.satisfies lits = true)
    (hp : a.satisfies (order.rest p) = false) : a.satisfies (order.rest n) = true := by
  have hfalse : ∀ x ∈ order.rest p, a.holds x = false := by
    simpa [Assignment.satisfies] using hp
  cases r with
  | empty => exact absurd rfl hne
  | tautology _ =>
    obtain ⟨x, hxp, hxn⟩ := h
    refine Assignment.satisfies_iff.2 ⟨x.negate, hxn, ?_⟩
    rw [Assignment.holds_negate, hfalse x hxp]
    rfl
  | clause lits =>
    obtain ⟨x, hx, hh⟩ := Assignment.satisfies_iff.1 (hr lits rfl)
    rcases (h.2.2 x).1 hx with hxp | hxn
    · rw [hfalse x hxp] at hh
      cases hh
    · exact Assignment.satisfies_iff.2 ⟨x, hxn, hh⟩

/-- A resolvent holds wherever both clauses do. -/
theorem Resolvent.Of.satisfies_clause {p n lits : List Lit} {a : Assignment} {value : Bool}
    (hcp : isCanonical p = true) (hcn : isCanonical n = true)
    (hpp : order.pivot? p = some ⟨v, .positive⟩) (hnn : order.pivot? n = some ⟨v, .negative⟩)
    (h : Resolvent.Of order p n ⟨v, .positive⟩ (.clause lits))
    (hp : (a.update v value).satisfies p = true) (hn : (a.update v value).satisfies n = true) :
    a.satisfies lits = true := by
  have hrest : a.satisfies (order.rest p) = true ∨ a.satisfies (order.rest n) = true := by
    rcases (Assignment.satisfies_update_of_pivot hcp hpp a value).1 hp with hvp | hrp
    · rcases (Assignment.satisfies_update_of_pivot hcn hnn a value).1 hn with hvn | hrn
      · rw [hvp] at hvn
        cases hvn
      · exact .inr hrn
    · exact .inl hrp
  rw [Assignment.satisfies_iff] at hrest ⊢
  rw [Assignment.satisfies_iff] at hrest
  rcases hrest with ⟨l, hl, hh⟩ | ⟨l, hl, hh⟩
  · exact ⟨l, (h.2.2 l).2 (.inl hl), hh⟩
  · exact ⟨l, (h.2.2 l).2 (.inr hl), hh⟩

/-- An assignment satisfies all resolvents exactly if some value of the variable satisfies all
clauses that were resolved. -/
theorem PivotsOn.exists_update_iff (hp : PivotsOn order v .positive positives)
    (hn : PivotsOn order v .negative negatives)
    (hunits : ∀ p ∈ positives, ∀ n ∈ negatives,
      resolve order p.lits n.lits ≠ .ok .empty) (a : Assignment) :
    (∃ value, ∀ c, c ∈ positives ∨ c ∈ negatives → (a.update v value).satisfies c.lits = true) ↔
      ∀ p ∈ positives, ∀ n ∈ negatives, ∀ lits,
        resolve order p.lits n.lits = .ok (.clause lits) →
          a.satisfies lits = true := by
  constructor
  · rintro ⟨value, hall⟩ p hpm n hnm lits hres
    obtain ⟨r, hr, hof⟩ := hp.resolves hn hpm hnm
    rw [hr] at hres
    cases hres
    exact hof.satisfies_clause p.canonical n.canonical (hp p hpm) (hn n hnm)
      (hall p (.inl hpm)) (hall n (.inr hnm))
  · intro hall
    by_cases hrest : ∀ p ∈ positives, a.satisfies (order.rest p.lits) = true
    · -- the positive clauses hold without the variable, so it may serve the negative ones
      refine ⟨false, fun c hc => ?_⟩
      rcases hc with hc | hc
      · exact (Assignment.satisfies_update_of_pivot c.canonical (hp c hc) a false).2
          (.inr (hrest c hc))
      · exact (Assignment.satisfies_update_of_pivot c.canonical (hn c hc) a false).2 (.inl rfl)
    · -- some positive clause needs the variable; its resolvents make the negative ones hold
      obtain ⟨p, hpm, hpf⟩ : ∃ p ∈ positives, a.satisfies (order.rest p.lits) = false := by
        simpa using hrest
      refine ⟨true, fun c hc => ?_⟩
      rcases hc with hc | hc
      · exact (Assignment.satisfies_update_of_pivot c.canonical (hp c hc) a true).2 (.inl rfl)
      · obtain ⟨r, hr, hof⟩ := hp.resolves hn hpm hc
        refine (Assignment.satisfies_update_of_pivot c.canonical (hn c hc) a true).2 (.inr ?_)
        refine hof.satisfies_rest ?_ (fun lits hlits => ?_) hpf
        · rintro rfl
          exact hunits p hpm c hc hr
        · subst hlits
          exact hall p hpm c hc lits hr

end Sides

end BucketElimination
