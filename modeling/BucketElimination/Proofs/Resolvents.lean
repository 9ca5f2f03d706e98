import BucketElimination.Logic.Resolution
import BucketElimination.Proofs.CanonicalForm
set_option autoImplicit false

/-!
# Resolvents: what resolving two clauses on their pivots gives

In a canonical clause the pivot comes before all other variables of the clause in the order of
elimination.  Resolving two canonical clauses with complementary pivots yields the empty clause
exactly if both are units, a tautology exactly if the remainders clash, and otherwise the canonical
clause of both remainders, whose variables are all eliminated later.  A buffer into which they are
resolved has this clause afterwards, whatever it had before.
-/

namespace BucketElimination

/-! ## Pivot and rest -/

namespace Order

theorem precedes_trans {order : Order} {u v w : Var} (h : order.precedes u v = true)
    (h' : order.precedes v w = true) : order.precedes u w = true := by
  cases order <;> simp only [precedes, decide_eq_true_eq, Var.lt_def] at * <;> omega

/-- Of two variables one is eliminated first, unless they are the same. -/
theorem precedes_or_eq_or_precedes (order : Order) (v w : Var) :
    order.precedes v w = true ∨ v = w ∨ order.precedes w v = true := by
  rcases Nat.lt_trichotomy v.number w.number with h | h | h
  · cases order <;> simp [precedes, Var.lt_def, h]
  · exact .inr (.inl (Var.ext_number h))
  · cases order <;> simp [precedes, Var.lt_def, h]

theorem ne_of_precedes {order : Order} {v w : Var} (h : order.precedes v w = true) : v ≠ w := by
  rintro rfl
  rw [precedes_irrefl] at h
  cases h

/-- The literals of a list are its pivot and the rest. -/
theorem mem_iff_pivot_or_rest {order : Order} {lits : List Lit} {p : Lit}
    (h : order.pivot? lits = some p) (l : Lit) : l ∈ lits ↔ l = p ∨ l ∈ order.rest lits := by
  have hlits := eq_rest_pivot h
  cases order <;> simp only at hlits
  · have hmem : l ∈ lits ↔ l ∈ descending.rest lits ++ [p] := by rw [← hlits]
    rw [hmem, List.mem_append, List.mem_singleton, or_comm]
  · have hmem : l ∈ lits ↔ l ∈ p :: ascending.rest lits := by rw [← hlits]
    rw [hmem, List.mem_cons]

theorem pivot_mem {order : Order} {lits : List Lit} {p : Lit}
    (h : order.pivot? lits = some p) : p ∈ lits :=
  (mem_iff_pivot_or_rest h p).2 (.inl rfl)

theorem mem_of_mem_rest {order : Order} {lits : List Lit} {l : Lit}
    (h : l ∈ order.rest lits) : l ∈ lits := by
  cases order
  · exact (List.dropLast_sublist lits).mem h
  · exact List.mem_of_mem_tail h

theorem rest_eq_nil_iff {order : Order} {lits : List Lit} {p : Lit}
    (h : order.pivot? lits = some p) : order.rest lits = [] ↔ lits = [p] := by
  have hlits := eq_rest_pivot h
  cases order <;> simp only at hlits
  · constructor
    · intro hrest
      rw [hlits, hrest]
      rfl
    · rintro rfl
      rfl
  · constructor
    · intro hrest
      rw [hlits, hrest]
    · rintro rfl
      rfl

/-- A canonical list without its pivot is canonical. -/
theorem isCanonical_rest (order : Order) {lits : List Lit} (h : isCanonical lits = true) :
    isCanonical (order.rest lits) = true := by
  rw [isCanonical_iff_pairwise] at *
  cases order
  · exact h.sublist (List.dropLast_sublist lits)
  · exact h.sublist (List.tail_sublist lits)

/-- The pivot of a canonical list is eliminated before every other variable of the list. -/
theorem precedes_of_mem_rest {order : Order} {lits : List Lit} {p l : Lit}
    (hc : isCanonical lits = true) (h : order.pivot? lits = some p) (hl : l ∈ order.rest lits) :
    order.precedes p.var l.var = true := by
  rw [isCanonical_iff_pairwise] at hc
  have hlits := eq_rest_pivot h
  cases order <;> simp only at hlits
  · rw [hlits] at hc
    exact decide_eq_true ((List.pairwise_append.1 hc).2.2 l hl p (List.mem_singleton_self p))
  · rw [hlits] at hc
    exact decide_eq_true ((List.pairwise_cons.1 hc).1 l hl)

/-- The rest of a canonical list does not mention the variable of the pivot. -/
theorem var_ne_of_mem_rest {order : Order} {lits : List Lit} {p l : Lit}
    (hc : isCanonical lits = true) (h : order.pivot? lits = some p) (hl : l ∈ order.rest lits) :
    l.var ≠ p.var :=
  (ne_of_precedes (precedes_of_mem_rest hc h hl)).symm

end Order

/-! ## Merging -/

/-- What a merge of two ascending lists amounts to. -/
def Resolvent.MergeOf (xs ys : List Lit) : Resolvent → Prop
  | .empty => False
  | .tautology _ => ∃ x ∈ xs, x.negate ∈ ys
  | .clause lits => isCanonical lits = true ∧ ∀ l, l ∈ lits ↔ l ∈ xs ∨ l ∈ ys

/-- A literal before all others of both lists can be put in front of their merge. -/
theorem Resolvent.MergeOf.push {xs ys xs' ys' : List Lit} {r : Resolvent} {a : Lit}
    (h : MergeOf xs ys r) (hmem : ∀ l, l ∈ xs' ∨ l ∈ ys' ↔ l = a ∨ l ∈ xs ∨ l ∈ ys)
    (hx : ∀ l ∈ xs, a.var < l.var ∧ l ∈ xs') (hy : ∀ l ∈ ys, a.var < l.var ∧ l ∈ ys') :
    MergeOf xs' ys' (r.push a) := by
  cases r with
  | empty => exact h.elim
  | tautology _ =>
    obtain ⟨x, hxs, hys⟩ := h
    exact ⟨x, (hx x hxs).2, (hy _ hys).2⟩
  | clause lits =>
    obtain ⟨hcanonical, hlits⟩ := h
    constructor
    · rw [isCanonical_iff_pairwise] at hcanonical ⊢
      refine List.pairwise_cons.2 ⟨fun l hl => ?_, hcanonical⟩
      rcases (hlits l).1 hl with hl | hl
      · exact (hx l hl).1
      · exact (hy l hl).1
    · intro l
      rw [List.mem_cons, hlits, hmem]

/-- Merging two canonical lists meets every clash, and keeps all literals if there is none. -/
theorem mergeLits_mergeOf {xs ys : List Lit} (hx : isCanonical xs = true)
    (hy : isCanonical ys = true) : Resolvent.MergeOf xs ys (mergeLits xs ys) := by
  fun_induction mergeLits xs ys with
  | case1 ys => exact ⟨hy, by simp⟩
  | case2 xs => exact ⟨hx, by simp⟩
  | case3 x xs y ys hlt ih =>
    have hxs := List.pairwise_cons.1 (isCanonical_iff_pairwise.1 hx)
    have hys := List.pairwise_cons.1 (isCanonical_iff_pairwise.1 hy)
    have hxy : x.var < y.var := Var.compare_eq_lt_iff.1 hlt
    refine (ih (isCanonical_tail hx) hy).push (fun l => by simp [or_assoc])
      (fun l hl => ⟨hxs.1 l hl, List.mem_cons_of_mem _ hl⟩) (fun l hl => ⟨?_, hl⟩)
    rcases List.mem_cons.1 hl with rfl | hl
    · exact hxy
    · exact Var.lt_trans hxy (hys.1 l hl)
  | case4 x xs y ys hgt ih =>
    have hxs := List.pairwise_cons.1 (isCanonical_iff_pairwise.1 hx)
    have hys := List.pairwise_cons.1 (isCanonical_iff_pairwise.1 hy)
    have hyx : y.var < x.var := Var.compare_eq_gt_iff.1 hgt
    refine (ih hx (isCanonical_tail hy)).push (fun l => by simp; grind)
      (fun l hl => ⟨?_, hl⟩) (fun l hl => ⟨hys.1 l hl, List.mem_cons_of_mem _ hl⟩)
    rcases List.mem_cons.1 hl with rfl | hl
    · exact hyx
    · exact Var.lt_trans hyx (hxs.1 l hl)
  | case5 x xs ys heq ih =>
    have hxs := List.pairwise_cons.1 (isCanonical_iff_pairwise.1 hx)
    have hys := List.pairwise_cons.1 (isCanonical_iff_pairwise.1 hy)
    exact (ih (isCanonical_tail hx) (isCanonical_tail hy)).push (fun l => by simp; grind)
      (fun l hl => ⟨hxs.1 l hl, List.mem_cons_of_mem _ hl⟩)
      (fun l hl => ⟨hys.1 l hl, List.mem_cons_of_mem _ hl⟩)
  | case6 x xs y ys heq hne =>
    have hxy : x.var = y.var := Var.compare_eq_eq_iff.1 heq
    rcases Lit.eq_or_eq_negate hxy with h | h
    · exact absurd h hne
    · exact ⟨x, List.mem_cons_self, by simp [h]⟩

/-! ## Resolving -/

/-- What resolving two clauses with the pivots `p` and its complement amounts to. -/
def Resolvent.Of (order : Order) (positive negative : List Lit) (p : Lit) : Resolvent → Prop
  | .empty => positive = [p] ∧ negative = [p.negate]
  | .tautology _ => ∃ x ∈ order.rest positive, x.negate ∈ order.rest negative
  | .clause lits => isCanonical lits = true ∧ lits ≠ [] ∧
      ∀ l, l ∈ lits ↔ l ∈ order.rest positive ∨ l ∈ order.rest negative

/-- Canonical clauses with complementary pivots can be resolved. -/
theorem resolve_of_pivots {order : Order} {positive negative : List Lit} {p : Lit}
    (hcp : isCanonical positive = true) (hcn : isCanonical negative = true)
    (hp : order.pivot? positive = some p) (hn : order.pivot? negative = some p.negate) :
    ∃ r, resolve order positive negative = .ok r ∧ r.Of order positive negative p := by
  have hmerge := mergeLits_mergeOf (order.isCanonical_rest hcp)
    (order.isCanonical_rest hcn)
  simp only [resolve, hp, hn, Lit.negate_negate, if_true]
  split
  · rename_i hrp hrn
    exact ⟨.empty, rfl, (Order.rest_eq_nil_iff hp).1 hrp, (Order.rest_eq_nil_iff hn).1 hrn⟩
  · rename_i hnil
    refine ⟨_, rfl, ?_⟩
    cases hr : mergeLits (order.rest positive) (order.rest negative) with
    | empty => rw [hr] at hmerge; exact hmerge.elim
    | tautology _ => rw [hr] at hmerge; exact hmerge
    | clause lits =>
      rw [hr] at hmerge
      refine ⟨hmerge.1, ?_, hmerge.2⟩
      rintro rfl
      refine hnil ?_ ?_
      · exact List.eq_nil_iff_forall_not_mem.2 fun l hl =>
          absurd ((hmerge.2 l).2 (.inl hl)) List.not_mem_nil
      · exact List.eq_nil_iff_forall_not_mem.2 fun l hl =>
          absurd ((hmerge.2 l).2 (.inr hl)) List.not_mem_nil

/-! ## Resolving into a buffer -/

theorem Resolvent.kind_push {r : Resolvent} (l : Lit) (h : r ≠ .empty) :
    (r.push l).kind = r.kind := by
  cases r with
  | empty => exact absurd rfl h
  | tautology written => rfl
  | clause lits => rfl

theorem Resolvent.eq_empty_iff_kind {r : Resolvent} : r = .empty ↔ r.kind = .empty := by
  cases r <;> simp [kind]

theorem Resolvent.written_push (r : Resolvent) (l : Lit) : (r.push l).written = l :: r.written := by
  cases r <;> rfl

theorem Resolvent.push_ne_empty (r : Resolvent) (l : Lit) : r.push l ≠ .empty := by
  cases r <;> simp [push]

/-- Only two units resolve to the empty clause, and these are not merged. -/
theorem mergeLits_ne_empty (xs ys : List Lit) : mergeLits xs ys ≠ .empty := by
  fun_cases mergeLits xs ys with
  | case1 ys => simp
  | case2 xs => simp
  | case3 x xs y ys => exact Resolvent.push_ne_empty _ _
  | case4 x xs y ys => exact Resolvent.push_ne_empty _ _
  | case5 x xs ys => exact Resolvent.push_ne_empty _ _
  | case6 x xs y ys => simp

/-- The buffer receives what a merge writes, after what it has. -/
theorem mergeInto_eq (xs ys : List Lit) (buffer : Array Lit) :
    mergeInto xs ys buffer = ((mergeLits xs ys).kind, buffer ++ (mergeLits xs ys).written) := by
  fun_induction mergeInto xs ys buffer with
  | case1 ys buffer =>
    rw [mergeLits_nil_left]
    rfl
  | case2 xs buffer =>
    rw [mergeLits_nil_right]
    rfl
  | case3 x xs y ys buffer hlt ih =>
    rw [ih, mergeLits, hlt, Resolvent.kind_push x (mergeLits_ne_empty _ _), Resolvent.written_push]
    simp
  | case4 x xs y ys buffer hgt ih =>
    rw [ih, mergeLits, hgt, Resolvent.kind_push y (mergeLits_ne_empty _ _), Resolvent.written_push]
    simp
  | case5 xs x ys buffer heq ih =>
    rw [ih, mergeLits, heq]
    simp only [if_true]
    rw [Resolvent.kind_push x (mergeLits_ne_empty _ _), Resolvent.written_push]
    simp
  | case6 x xs y ys buffer heq hne =>
    rw [mergeLits, heq]
    simp only [if_neg hne]
    simp [Resolvent.kind, Resolvent.written]

/-- Whatever a buffer held, resolving into it leaves what resolving writes. -/
theorem resolveInto_eq (order : Order) (positive negative : List Lit) (buffer : Array Lit) :
    resolveInto order positive negative buffer =
      (resolve order positive negative).map fun r => (r.kind, r.written.toArray) := by
  have hclear : buffer.shrink 0 = #[] := by simp
  unfold resolveInto resolve
  split
  · split
    · split
      · rw [hclear]
        rfl
      · rw [hclear, mergeInto_eq]
        simp [Except.map]
    · rfl
  · rfl

/-! ## Resolvents by their literals -/

/-- The clause has the literals of both clauses but for those of the variable. -/
def Clause.ResolventOf (r : Clause) (v : Var) (p n : Clause) : Prop :=
  ∀ l, l ∈ r.lits ↔ (l ∈ p.lits ∨ l ∈ n.lits) ∧ l.var ≠ v

theorem Order.mem_rest_iff {order : Order} {lits : List Lit} {p l : Lit}
    (hc : isCanonical lits = true) (h : order.pivot? lits = some p) :
    l ∈ order.rest lits ↔ l ∈ lits ∧ l.var ≠ p.var := by
  constructor
  · intro hl
    exact ⟨Order.mem_of_mem_rest hl, Order.var_ne_of_mem_rest hc h hl⟩
  · intro hl
    apply ((Order.mem_iff_pivot_or_rest h l).1 hl.1).resolve_left
    intro he
    exact hl.2 (congrArg Lit.var he)

/-- What two clauses with complementary pivots resolve to has their other literals. -/
theorem Resolvent.Of.resolventOf {order : Order} {v : Var} {p n r : Clause}
    (h : (Resolvent.clause r.lits).Of order p.lits n.lits ⟨v, .positive⟩)
    (hp : order.pivot? p.lits = some ⟨v, .positive⟩)
    (hn : order.pivot? n.lits = some ⟨v, .negative⟩) : r.ResolventOf v p n := by
  intro l
  rw [h.2.2, Order.mem_rest_iff p.canonical hp, Order.mem_rest_iff n.canonical hn, or_and_right]

/-- Two clauses with complementary pivots resolve to the clause with their other literals, if there
is one and it is not empty. -/
theorem Clause.ResolventOf.resolve {order : Order} {v : Var} {p n r : Clause}
    (hr : r.ResolventOf v p n) (hne : r.lits ≠ [])
    (hp : order.pivot? p.lits = some ⟨v, .positive⟩)
    (hn : order.pivot? n.lits = some ⟨v, .negative⟩) :
    resolve order p.lits n.lits = .ok (.clause r.lits) := by
  have hrest : ∀ l, l ∈ order.rest p.lits ∨ l ∈ order.rest n.lits ↔ l ∈ r.lits := by
    intro l
    rw [hr, Order.mem_rest_iff p.canonical hp, Order.mem_rest_iff n.canonical hn, or_and_right]
  obtain ⟨resolvent, hresolve, hof⟩ := resolve_of_pivots p.canonical n.canonical hp hn
  rw [hresolve]
  cases resolvent with
  | empty =>
    obtain ⟨l, hl⟩ := List.exists_mem_of_ne_nil _ hne
    have hnil := (hrest l).2 hl
    rw [(Order.rest_eq_nil_iff hp).2 hof.1, (Order.rest_eq_nil_iff hn).2 hof.2] at hnil
    simp at hnil
  | tautology _ =>
    obtain ⟨l, hl, hl'⟩ := hof
    have hclash := negate_not_mem_of_isCanonical r.canonical ((hrest l).1 (.inl hl))
    exact absurd ((hrest _).1 (.inr hl')) hclash
  | clause lits =>
    obtain ⟨hcanonical, -, hmem⟩ := hof
    have hlits : lits = r.lits :=
      eq_of_mem_iff_of_isCanonical hcanonical r.canonical fun l => (hmem l).trans (hrest l)
    rw [hlits]

/-! ## Which resolvent it is -/

section

variable {order : Order} {positive negative : List Lit} {p : Lit} {r : Resolvent}

/-- The empty clause comes out of two units and of nothing else. -/
theorem Resolvent.Of.kind_eq_empty_iff (h : r.Of order positive negative p)
    (hp : order.pivot? positive = some p) (hn : order.pivot? negative = some p.negate) :
    r.kind = .empty ↔ positive = [p] ∧ negative = [p.negate] := by
  cases r with
  | empty => exact iff_of_true rfl h
  | tautology written =>
    apply iff_of_false (by simp [kind])
    intro hunits
    obtain ⟨x, hx, -⟩ := h
    rw [(Order.rest_eq_nil_iff hp).2 hunits.1] at hx
    cases hx
  | clause lits =>
    apply iff_of_false (by simp [kind])
    intro hunits
    obtain ⟨l, hl⟩ := List.exists_mem_of_ne_nil lits h.2.1
    have hmem := (h.2.2 l).1 hl
    rw [(Order.rest_eq_nil_iff hp).2 hunits.1, (Order.rest_eq_nil_iff hn).2 hunits.2] at hmem
    simp at hmem

/-- A tautology comes out of remainders that clash and of nothing else, since a canonical list has
no clash. -/
theorem Resolvent.Of.kind_eq_tautology_iff (h : r.Of order positive negative p)
    (hp : order.pivot? positive = some p) :
    r.kind = .tautology ↔ ∃ x ∈ order.rest positive, x.negate ∈ order.rest negative := by
  cases r with
  | empty =>
    apply iff_of_false (by simp [kind])
    intro hclash
    obtain ⟨x, hx, -⟩ := hclash
    rw [(Order.rest_eq_nil_iff hp).2 h.1] at hx
    cases hx
  | tautology written => exact iff_of_true rfl h
  | clause lits =>
    apply iff_of_false (by simp [kind])
    intro hclash
    obtain ⟨x, hx, hx'⟩ := hclash
    have hmem : x ∈ lits := (h.2.2 x).2 (.inl hx)
    have hmem' : x.negate ∈ lits := (h.2.2 x.negate).2 (.inr hx')
    exact absurd hmem' (negate_not_mem_of_isCanonical h.1 hmem)

/-- All variables of a resolvent are eliminated after the one that was resolved on. -/
theorem Resolvent.Of.precedes {lits : List Lit}
    (h : (Resolvent.clause lits).Of order positive negative p)
    (hcp : isCanonical positive = true) (hcn : isCanonical negative = true)
    (hp : order.pivot? positive = some p) (hn : order.pivot? negative = some p.negate)
    {l : Lit} (hl : l ∈ lits) : order.precedes p.var l.var = true := by
  rcases (h.2.2 l).1 hl with hl | hl
  · exact Order.precedes_of_mem_rest hcp hp hl
  · have hlater : order.precedes p.negate.var l.var = true :=
      Order.precedes_of_mem_rest hcn hn hl
    exact hlater

/-- Canonical clauses with complementary pivots always resolve, whatever the buffer held before: to
the empty clause exactly if both are units, to a tautology exactly if their remainders clash, and
otherwise to a clause, and then the buffer has the canonical list of both remainders, all of whose
variables are eliminated later. -/
theorem resolve_exact (buffer : Array Lit) (hcp : isCanonical positive = true)
    (hcn : isCanonical negative = true) (hp : order.pivot? positive = some p)
    (hn : order.pivot? negative = some p.negate) :
    ∃ r, resolve order positive negative = .ok r ∧
      resolveInto order positive negative buffer = .ok (r.kind, r.written.toArray) ∧
      (r.kind = .empty ↔ positive = [p] ∧ negative = [p.negate]) ∧
      (r.kind = .tautology ↔ ∃ x ∈ order.rest positive, x.negate ∈ order.rest negative) ∧
      (¬ (positive = [p] ∧ negative = [p.negate]) →
        (¬ ∃ x ∈ order.rest positive, x.negate ∈ order.rest negative) →
        r = .clause r.written ∧ isCanonical r.written = true ∧
          (∀ l, l ∈ r.written ↔ l ∈ order.rest positive ∨ l ∈ order.rest negative) ∧
          ∀ l ∈ r.written, order.precedes p.var l.var = true) := by
  obtain ⟨r, hr, hof⟩ := resolve_of_pivots hcp hcn hp hn
  have hempty := hof.kind_eq_empty_iff hp hn
  have htautology := hof.kind_eq_tautology_iff hp
  have hinto : resolveInto order positive negative buffer = .ok (r.kind, r.written.toArray) := by
    rw [resolveInto_eq, hr]
    rfl
  refine ⟨r, hr, hinto, hempty, htautology, ?_⟩
  intro hunits hclash
  cases r with
  | empty => exact absurd (hempty.1 rfl) hunits
  | tautology written => exact absurd (htautology.1 rfl) hclash
  | clause lits =>
    refine ⟨rfl, hof.1, hof.2.2, ?_⟩
    intro l hl
    exact hof.precedes hcp hcn hp hn hl

end

/-- The literal of the variable with this number, which is positive exactly if the number is. -/
def litOf (n : Int) : Lit := (Lit.ofInt? n).getD default

/-- The theorem on two clauses whose remainders share a literal and interleave, with the pivot at
the front and another clause in the buffer. -/
theorem resolve_exact_shared :
    isCanonical [litOf 1, litOf (-2), litOf 5] = true ∧
      isCanonical [litOf (-1), litOf (-2), litOf 3] = true ∧
      ∃ lits, resolveInto .ascending [litOf 1, litOf (-2), litOf 5]
          [litOf (-1), litOf (-2), litOf 3] #[litOf 4] = .ok (.clause, lits.toArray) ∧
        isCanonical lits = true ∧
        ∀ l, l ∈ lits ↔ l ∈ [litOf (-2), litOf 5] ∨ l ∈ [litOf (-2), litOf 3] := by
  have hcp : isCanonical [litOf 1, litOf (-2), litOf 5] = true := by decide
  have hcn : isCanonical [litOf (-1), litOf (-2), litOf 3] = true := by decide
  have hp : Order.ascending.pivot? [litOf 1, litOf (-2), litOf 5] = some (litOf 1) := by decide
  have hn : Order.ascending.pivot? [litOf (-1), litOf (-2), litOf 3] =
      some (litOf 1).negate := by decide
  obtain ⟨r, -, hinto, -, -, hclause⟩ := resolve_exact #[litOf 4] hcp hcn hp hn
  obtain ⟨hr, hcanonical, hmem, -⟩ := hclause (by decide) (by decide)
  rw [congrArg Resolvent.kind hr] at hinto
  exact ⟨hcp, hcn, r.written, hinto, hcanonical, hmem⟩

end BucketElimination
