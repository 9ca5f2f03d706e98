import BucketElimination.Logic.Clause
import BucketElimination.Logic.Semantics
set_option autoImplicit false

/-!
# Canonical form: what sorting and dropping repetitions achieves

A list is canonical exactly if its variables strictly ascend from left to right, not only between
neighbours.  `canonicalize` refuses exactly the tautologies, and what it returns has the same
literals as the list it was given, hence the same models.  There is only one canonical list with
these literals, so neither their order and repetitions nor the way of sorting them matter, and
`canonicalizeInto` leaves this list whatever its buffer held.
-/

namespace BucketElimination

/-! ## The order of literals -/

namespace Var

theorem lt_trans {u v w : Var} (h : u < v) (h' : v < w) : u < w := Nat.lt_trans h h'

theorem lt_irrefl (v : Var) : ¬ v < v := Nat.lt_irrefl v.number

theorem lt_or_eq_of_le {v w : Var} (h : v ≤ w) : v < w ∨ v = w := by
  rcases Nat.lt_or_eq_of_le h with h | h
  · exact .inl h
  · exact .inr (ext_number h)

theorem compare_eq_lt_iff {v w : Var} : compare v w = .lt ↔ v < w := Nat.compare_eq_lt

theorem compare_eq_gt_iff {v w : Var} : compare v w = .gt ↔ w < v := Nat.compare_eq_gt

theorem compare_eq_eq_iff {v w : Var} : compare v w = .eq ↔ v = w :=
  Std.LawfulEqOrd.compare_eq_iff_eq

end Var

namespace Lit

theorem le_trans (l m n : Lit) (h : l.le m = true) (h' : m.le n = true) : l.le n = true :=
  Std.TransCmp.isLE_trans h h'

theorem le_total (l m : Lit) : (l.le m || m.le l) = true := by
  have h : compare l m = (compare m l).swap := Std.OrientedCmp.eq_swap
  simp only [le, h]
  cases compare m l <;> rfl

theorem le_antisymm {l m : Lit} (h : l.le m = true) (h' : m.le l = true) : l = m :=
  Std.LawfulEqOrd.eq_of_compare (Std.OrientedCmp.isLE_antisymm h h')

/-- Ascending literals have ascending variables. -/
theorem var_le_of_le {l m : Lit} (h : l.le m = true) : l.var ≤ m.var := by
  by_cases hv : m.var < l.var
  · have hgt : compare l.var m.var = .gt := Var.compare_eq_gt_iff.2 hv
    have hlm : compare l m = .gt := by
      show (compare l.var m.var).then _ = .gt
      rw [hgt]
      rfl
    rw [le, hlm] at h
    cases h
  · exact Nat.le_of_not_lt hv

end Lit

/-! ## Canonical lists -/

/-- In a canonical list every literal has a smaller variable than those after it. -/
theorem isCanonical_iff_pairwise {lits : List Lit} :
    isCanonical lits = true ↔ lits.Pairwise fun a b => a.var < b.var := by
  induction lits with
  | nil => simp
  | cons a rest ih =>
    cases rest with
    | nil => simp
    | cons b rest =>
      rw [isCanonical, Bool.and_eq_true, decide_eq_true_eq, ih, List.pairwise_cons (a := a)]
      constructor
      · rintro ⟨hab, hrest⟩
        refine ⟨fun c hc => ?_, hrest⟩
        rcases List.mem_cons.1 hc with rfl | hc
        · exact hab
        · exact Var.lt_trans hab ((List.pairwise_cons.1 hrest).1 c hc)
      · rintro ⟨hall, hrest⟩
        exact ⟨hall b List.mem_cons_self, hrest⟩

/-- A canonical list has one literal for each of its variables. -/
theorem eq_of_var_eq_of_isCanonical {lits : List Lit} (h : isCanonical lits = true) {a b : Lit}
    (ha : a ∈ lits) (hb : b ∈ lits) (hv : a.var = b.var) : a = b := by
  induction lits with
  | nil => cases ha
  | cons c rest ih =>
    obtain ⟨hc, -⟩ := List.pairwise_cons.1 (isCanonical_iff_pairwise.1 h)
    rcases List.mem_cons.1 ha with hac | har <;> rcases List.mem_cons.1 hb with hbc | hbr
    · rw [hac, hbc]
    · exact absurd (hv ▸ hac ▸ hc b hbr) (Var.lt_irrefl _)
    · exact absurd (hv ▸ hbc ▸ hc a har) (Var.lt_irrefl _)
    · exact ih (isCanonical_tail h) har hbr

/-- Two canonical lists with the same literals are equal. -/
theorem eq_of_mem_iff_of_isCanonical {xs ys : List Lit} (hx : isCanonical xs = true)
    (hy : isCanonical ys = true) (h : ∀ l, l ∈ xs ↔ l ∈ ys) : xs = ys := by
  induction xs generalizing ys with
  | nil =>
    cases ys with
    | nil => rfl
    | cons b ys => exact absurd ((h b).2 List.mem_cons_self) List.not_mem_nil
  | cons a xs ih =>
    cases ys with
    | nil => exact absurd ((h a).1 List.mem_cons_self) List.not_mem_nil
    | cons b ys =>
      obtain ⟨hax, -⟩ := List.pairwise_cons.1 (isCanonical_iff_pairwise.1 hx)
      obtain ⟨hby, -⟩ := List.pairwise_cons.1 (isCanonical_iff_pairwise.1 hy)
      -- the heads are the literals with the least variable on either side
      have hab : a = b := by
        rcases List.mem_cons.1 ((h a).1 List.mem_cons_self) with hab | ha
        · exact hab
        · rcases List.mem_cons.1 ((h b).2 List.mem_cons_self) with hba | hb
          · exact hba.symm
          · exact absurd (Var.lt_trans (hax b hb) (hby a ha)) (Var.lt_irrefl _)
      subst hab
      congr 1
      refine ih (isCanonical_tail hx) (isCanonical_tail hy) fun l => ?_
      constructor
      · intro hl
        rcases List.mem_cons.1 ((h l).1 (List.mem_cons_of_mem _ hl)) with rfl | hl'
        · exact absurd (hax l hl) (Var.lt_irrefl _)
        · exact hl'
      · intro hl
        rcases List.mem_cons.1 ((h l).2 (List.mem_cons_of_mem _ hl)) with rfl | hl'
        · exact absurd (hby l hl) (Var.lt_irrefl _)
        · exact hl'

/-! ## Sorting and dropping repetitions -/

theorem mem_sortLits {l : Lit} {lits : List Lit} : l ∈ sortLits lits ↔ l ∈ lits :=
  (List.mergeSort_perm lits Lit.le).mem_iff

theorem pairwise_le_sortLits (lits : List Lit) :
    (sortLits lits).Pairwise fun a b => a.le b = true :=
  List.pairwise_mergeSort Lit.le_trans Lit.le_total lits

/-- There is only one way to put literals in order. -/
theorem eq_sortLits {lits sorted : List Lit} (hperm : sorted.Perm lits)
    (hsorted : sorted.Pairwise fun a b => a.le b = true) : sorted = sortLits lits := by
  have hsort : (sortLits lits).Perm lits := List.mergeSort_perm lits Lit.le
  apply List.Perm.eq_of_pairwise _ hsorted (pairwise_le_sortLits lits) (hperm.trans hsort.symm)
  intro a b _ _ hab hba
  exact Lit.le_antisymm hab hba

theorem dropRepeats_cons_eq (a : Lit) (rest : List Lit) :
    ∃ tail, dropRepeats (a :: rest) = a :: tail := by
  induction rest generalizing a with
  | nil => exact ⟨[], rfl⟩
  | cons b rest ih =>
    unfold dropRepeats
    split
    · rename_i hab
      exact hab ▸ ih b
    · exact ⟨_, rfl⟩

/-- Without repetitions and clashes between neighbours an ascending list is canonical. -/
theorem isCanonical_dropRepeats {lits : List Lit} (h : lits.Pairwise fun a b => a.le b = true)
    (hclash : hasClash (dropRepeats lits) = false) : isCanonical (dropRepeats lits) = true := by
  fun_induction dropRepeats lits with
  | case1 b rest ih => exact ih (List.pairwise_cons.1 h).2 hclash
  | case2 a b rest hab ih =>
    obtain ⟨tail, htail⟩ := dropRepeats_cons_eq b rest
    rw [htail, hasClash, Bool.or_eq_false_iff] at hclash
    rw [htail] at ih ⊢
    rw [isCanonical, Bool.and_eq_true, decide_eq_true_eq]
    refine ⟨?_, ih (List.pairwise_cons.1 h).2 hclash.2⟩
    -- neighbours of one variable would be equal or clash
    have hle : a.le b = true := (List.pairwise_cons.1 h).1 b List.mem_cons_self
    rcases Var.lt_or_eq_of_le (Lit.var_le_of_le hle) with hlt | heq
    · exact hlt
    · rcases Lit.eq_or_eq_negate heq with hab' | hab'
      · exact absurd hab' hab
      · simp [hab'] at hclash
  | case3 lits hshort =>
    cases lits with
    | nil => rfl
    | cons a rest =>
      cases rest with
      | nil => rfl
      | cons b rest => exact absurd rfl (hshort a b rest)

theorem exists_negate_mem_of_hasClash {lits : List Lit} (h : hasClash lits = true) :
    ∃ l ∈ lits, l.negate ∈ lits := by
  fun_induction hasClash lits with
  | case1 a b rest ih =>
    rcases Bool.or_eq_true_iff.1 h with hab | hrest
    · have hab : a = b.negate := by simpa using hab
      exact ⟨b, by simp, by simp [hab]⟩
    · obtain ⟨l, hl, hn⟩ := ih hrest
      exact ⟨l, List.mem_cons_of_mem _ hl, List.mem_cons_of_mem _ hn⟩
  | case2 => cases h

/-- A canonical list holds no literal together with its complement. -/
theorem negate_not_mem_of_isCanonical {lits : List Lit} (h : isCanonical lits = true) {l : Lit}
    (hl : l ∈ lits) : l.negate ∉ lits := fun hn =>
  l.negate_ne (eq_of_var_eq_of_isCanonical h hn hl rfl)

/-! ## What canonicalization achieves -/

/-- A list is refused exactly if it holds a literal and its complement. -/
theorem canonicalize_eq_none_iff {lits : List Lit} :
    canonicalize lits = none ↔ ∃ l ∈ lits, l.negate ∈ lits := by
  have hmem : ∀ l, l ∈ dropRepeats (sortLits lits) ↔ l ∈ lits := by
    intro l
    rw [mem_dropRepeats, mem_sortLits]
  rw [canonicalize]
  cases hclash : hasClash (dropRepeats (sortLits lits)) with
  | true =>
    obtain ⟨l, hl, hn⟩ := exists_negate_mem_of_hasClash hclash
    simpa using ⟨l, (hmem l).1 hl, (hmem l.negate).1 hn⟩
  | false =>
    have hcanonical := isCanonical_dropRepeats (pairwise_le_sortLits lits) hclash
    simp only [Bool.false_eq_true, if_false, reduceCtorEq, false_iff]
    rintro ⟨l, hl, hn⟩
    exact negate_not_mem_of_isCanonical hcanonical ((hmem l).2 hl) ((hmem _).2 hn)

/-- What is not refused becomes canonical and keeps its literals. -/
theorem canonicalize_eq_some {lits out : List Lit} (h : canonicalize lits = some out) :
    isCanonical out = true ∧ ∀ l, l ∈ out ↔ l ∈ lits := by
  unfold canonicalize at h
  cases hclash : hasClash (dropRepeats (sortLits lits)) with
  | true => simp [hclash] at h
  | false =>
    simp only [hclash, Bool.false_eq_true, if_false, Option.some.injEq] at h
    subst h
    refine ⟨isCanonical_dropRepeats (pairwise_le_sortLits lits) hclash, fun l => ?_⟩
    rw [mem_dropRepeats, mem_sortLits]

/-- The canonical form depends on the set of literals only. -/
theorem canonicalize_congr {lits lits' : List Lit} (h : ∀ l, l ∈ lits' ↔ l ∈ lits) :
    canonicalize lits' = canonicalize lits := by
  cases hcanonical : canonicalize lits with
  | none =>
    obtain ⟨l, hl, hn⟩ := canonicalize_eq_none_iff.1 hcanonical
    exact canonicalize_eq_none_iff.2 ⟨l, (h l).2 hl, (h l.negate).2 hn⟩
  | some out =>
    obtain ⟨hout, hmem⟩ := canonicalize_eq_some hcanonical
    cases hcanonical' : canonicalize lits' with
    | none =>
      obtain ⟨l, hl, hn⟩ := canonicalize_eq_none_iff.1 hcanonical'
      have hrefused : canonicalize lits = none :=
        canonicalize_eq_none_iff.2 ⟨l, (h l).1 hl, (h l.negate).1 hn⟩
      rw [hcanonical] at hrefused
      cases hrefused
    | some out' =>
      obtain ⟨hout', hmem'⟩ := canonicalize_eq_some hcanonical'
      congr 1
      apply eq_of_mem_iff_of_isCanonical hout' hout
      intro l
      rw [hmem', hmem, h]

/-- A canonical list is its own canonical form. -/
theorem canonicalize_of_isCanonical {lits : List Lit} (h : isCanonical lits = true) :
    canonicalize lits = some lits := by
  cases hcanonical : canonicalize lits with
  | none =>
    obtain ⟨l, hl, hn⟩ := canonicalize_eq_none_iff.1 hcanonical
    exact absurd hn (negate_not_mem_of_isCanonical h hl)
  | some out =>
    obtain ⟨hout, hmem⟩ := canonicalize_eq_some hcanonical
    rw [eq_of_mem_iff_of_isCanonical hout h hmem]

/-! ## Canonical form in a buffer -/

/-- What the buffer held before does not matter. -/
theorem canonicalizeInto_eq (lits : List Lit) (buffer : Array Lit) :
    canonicalizeInto lits buffer =
      match canonicalize lits with
      | none => (.tautology, (dropRepeats (sortLits lits)).toArray)
      | some canonical => (.clause, canonical.toArray) := by
  have hcopied : (buffer.shrink 0 ++ lits).toList = lits := by simp
  simp only [canonicalizeInto, canonicalize, hcopied]
  cases hasClash (dropRepeats (sortLits lits)) <;> rfl

/-- A list is reported as a tautology exactly if it holds a literal and its complement.  For any
other list the buffer is left with the only canonical list that has the same literals; it is the
same for all lists with these literals, and for itself.  The first step, sorting, has only one
possible result. -/
theorem canonicalizeInto_exact (lits : List Lit) (buffer : Array Lit) :
    ∃ outcome out, canonicalizeInto lits buffer = (outcome, out) ∧
      (outcome = .tautology ↔ ∃ l ∈ lits, l.negate ∈ lits) ∧
      (outcome = .clause →
        (isCanonical out.toList = true ∧ ∀ l, l ∈ out ↔ l ∈ lits) ∧
        (∀ other, isCanonical other = true → (∀ l, l ∈ other ↔ l ∈ lits) →
          other = out.toList) ∧
        (∀ lits' buffer', (∀ l, l ∈ lits' ↔ l ∈ lits) →
          canonicalizeInto lits' buffer' = (.clause, out)) ∧
        ∀ buffer', canonicalizeInto out.toList buffer' = (.clause, out)) ∧
      ∀ sorted : List Lit, sorted.Perm lits → (sorted.Pairwise fun a b => a.le b = true) →
        sorted = sortLits lits := by
  have hsort : ∀ sorted : List Lit, sorted.Perm lits →
      (sorted.Pairwise fun a b => a.le b = true) → sorted = sortLits lits :=
    fun _ hperm hsorted => eq_sortLits hperm hsorted
  rw [canonicalizeInto_eq]
  cases hcanonical : canonicalize lits with
  | none =>
    refine ⟨_, _, rfl, ?_, nofun, hsort⟩
    exact iff_of_true rfl (canonicalize_eq_none_iff.1 hcanonical)
  | some out =>
    obtain ⟨hout, hmem⟩ := canonicalize_eq_some hcanonical
    have hclause : ¬ ∃ l ∈ lits, l.negate ∈ lits := by
      rw [← canonicalize_eq_none_iff, hcanonical]
      nofun
    refine ⟨_, _, rfl, iff_of_false nofun hclause, fun _ => ⟨⟨hout, ?_⟩, ?_, ?_, ?_⟩, hsort⟩
    · intro l
      rw [← hmem]
      exact List.mem_toArray
    · intro other hother hmem'
      apply eq_of_mem_iff_of_isCanonical hother hout
      intro l
      rw [hmem', hmem]
    · intro lits' buffer' hmem'
      rw [canonicalizeInto_eq, canonicalize_congr hmem', hcanonical]
    · intro buffer'
      rw [canonicalizeInto_eq, canonicalize_of_isCanonical hout]

/-- Three literals, two of them twice, and none in its place. -/
def repeatedLits : List Lit := [3, -1, 3, 2, -1].filterMap Lit.ofInt?

/-- The theorem on these literals, and on their reverse with something in the buffer. -/
theorem canonicalizeInto_exact_repeatedLits :
    canonicalizeInto repeatedLits #[] = (.clause, ([-1, 2, 3].filterMap Lit.ofInt?).toArray) ∧
      canonicalizeInto repeatedLits.reverse repeatedLits.toArray =
        (.clause, ([-1, 2, 3].filterMap Lit.ofInt?).toArray) := by
  obtain ⟨outcome, out, hinto, htautology, hclause, -⟩ := canonicalizeInto_exact repeatedLits #[]
  have hno : ¬ ∃ l ∈ repeatedLits, l.negate ∈ repeatedLits := by decide
  cases outcome with
  | tautology => exact absurd (htautology.1 rfl) hno
  | clause =>
    obtain ⟨-, honly, hsame, -⟩ := hclause rfl
    have hout : [-1, 2, 3].filterMap Lit.ofInt? = out.toList := by
      apply honly _ (by decide)
      intro l
      have hl : [-1, 2, 3].filterMap Lit.ofInt? ⊆ repeatedLits ∧
          repeatedLits ⊆ [-1, 2, 3].filterMap Lit.ofInt? := by decide
      exact ⟨fun h => hl.1 h, fun h => hl.2 h⟩
    rw [hout]
    exact ⟨hinto, hsame _ _ fun l => List.mem_reverse⟩

/-! ## Models -/

namespace Assignment

/-- Satisfaction depends on the set of literals only. -/
theorem satisfies_congr {a : Assignment} {xs ys : List Lit} (h : ∀ l, l ∈ xs ↔ l ∈ ys) :
    a.satisfies xs = a.satisfies ys := by
  rw [Bool.eq_iff_iff, satisfies_iff, satisfies_iff]
  simp only [h]

/-- A tautology holds under every assignment. -/
theorem satisfies_of_canonicalize_eq_none {lits : List Lit} (h : canonicalize lits = none)
    (a : Assignment) : a.satisfies lits = true := by
  obtain ⟨l, hl, hn⟩ := canonicalize_eq_none_iff.1 h
  rw [satisfies_iff]
  cases hh : a.holds l with
  | true => exact ⟨l, hl, hh⟩
  | false => exact ⟨l.negate, hn, by rw [holds_negate, hh]; rfl⟩

theorem satisfies_of_canonicalize_eq_some {lits out : List Lit}
    (h : canonicalize lits = some out) (a : Assignment) : a.satisfies out = a.satisfies lits :=
  satisfies_congr (canonicalize_eq_some h).2

end Assignment

end BucketElimination
