import BucketElimination.Proofs.BucketInvariant
import BucketElimination.Elimination.Task
import Mathlib.Algebra.Order.Ring.Int
set_option autoImplicit false

/-!
# Harvest: what a task gathers before it merges

A task resolves positive clauses with its share of the negative ones.  Its harvest has the
resolvents that are neither empty nor tautologies, each once and in the bucket of its pivot, which
comes later in the order than the variable that is eliminated.  The counters say how many pairs gave
a resolvent, how many a tautology, and how many of the resolvents were there already.
-/

namespace BucketElimination

/-! ## Resolvents of two lists of clauses -/

/-- The clause that two clauses resolve to, unless it is empty or a tautology. -/
def resolvent? (order : Order) (p n : Clause) : Option Clause :=
  match resolve order p.lits n.lits with
  | .ok (.clause lits) => (Clause.ofLits lits).toOption
  | _ => none

/-- The clauses resolve to a tautology. -/
def clash (order : Order) (p n : Clause) : Bool :=
  match resolve order p.lits n.lits with
  | .ok (.tautology _) => true
  | _ => false

/-- The resolvents of all pairs of clauses, as often as they arise. -/
def resolvents (order : Order) (positives negatives : List Clause) : List Clause :=
  positives.flatMap fun p => negatives.filterMap (resolvent? order p)

/-- The number of pairs of clauses that resolve to a tautology. -/
def tautologies (order : Order) (positives negatives : List Clause) : Nat :=
  (positives.map fun p => negatives.countP (clash order p)).sum

/-- Some pair of clauses resolves to the empty clause. -/
def Refutes (order : Order) (positives negatives : List Clause) : Prop :=
  ∃ p ∈ positives, ∃ n ∈ negatives, resolve order p.lits n.lits = .ok .empty

theorem resolvent?_eq_some_iff {order : Order} {p n c : Clause} :
    resolvent? order p n = some c ↔ resolve order p.lits n.lits = .ok (.clause c.lits) := by
  unfold resolvent?
  constructor
  · intro h
    split at h
    · rename_i lits hlits
      cases hc : Clause.ofLits lits with
      | error f => rw [hc] at h; cases h
      | ok d =>
        rw [hc] at h
        cases h
        rw [hlits, Clause.ofLits_eq_ok_iff.1 hc]
    · cases h
  · intro h
    simp [h, Except.toOption]

theorem mem_resolvents {order : Order} {positives negatives : List Clause} {c : Clause} :
    c ∈ resolvents order positives negatives ↔
      ∃ p ∈ positives, ∃ n ∈ negatives, resolve order p.lits n.lits = .ok (.clause c.lits) := by
  simp only [resolvents, List.mem_flatMap, List.mem_filterMap, resolvent?_eq_some_iff]

theorem resolvents_append_left (order : Order) (ps qs negatives : List Clause) :
    resolvents order (ps ++ qs) negatives =
      resolvents order ps negatives ++ resolvents order qs negatives := by
  simp [resolvents]

theorem tautologies_append_left (order : Order) (ps qs negatives : List Clause) :
    tautologies order (ps ++ qs) negatives =
      tautologies order ps negatives + tautologies order qs negatives := by
  simp [tautologies]

theorem length_resolvents_append_right (order : Order) (positives ns ms : List Clause) :
    (resolvents order positives (ns ++ ms)).length =
      (resolvents order positives ns).length + (resolvents order positives ms).length := by
  induction positives with
  | nil => rfl
  | cons p positives ih =>
    simp only [resolvents, List.flatMap_cons, List.length_append, List.filterMap_append] at *
    omega

theorem tautologies_append_right (order : Order) (positives ns ms : List Clause) :
    tautologies order positives (ns ++ ms) =
      tautologies order positives ns + tautologies order positives ms := by
  induction positives with
  | nil => rfl
  | cons p positives ih =>
    simp only [tautologies, List.map_cons, List.sum_cons, List.countP_append] at *
    omega

/-- The order of the clauses has no part in their resolvents. -/
theorem resolvents_perm (order : Order) {ps ps' ns ns' : List Clause} (hp : ps.Perm ps')
    (hn : ns.Perm ns') : (resolvents order ps ns).Perm (resolvents order ps' ns') := by
  refine (hp.flatMap_right _).trans ?_
  clear hp
  induction ps' with
  | nil => exact List.Perm.refl _
  | cons p ps' ih => exact (hn.filterMap _).append ih

theorem tautologies_perm (order : Order) {ps ps' ns ns' : List Clause} (hp : ps.Perm ps')
    (hn : ns.Perm ns') : tautologies order ps ns = tautologies order ps' ns' := by
  simp only [tautologies, hn.countP_eq]
  exact (hp.map _).sum_nat

/-- The literals of a resolvent come from the clauses that were resolved. -/
theorem mem_of_mem_resolvents {order : Order} {v : Var} {ps ns : List Clause}
    (hp : PivotsOn order v .positive ps) (hn : PivotsOn order v .negative ns) {c : Clause}
    (hc : c ∈ resolvents order ps ns) {l : Lit} (hl : l ∈ c.lits) :
    (∃ p ∈ ps, l ∈ p.lits) ∨ ∃ n ∈ ns, l ∈ n.lits := by
  obtain ⟨p, hpm, n, hnm, hr⟩ := mem_resolvents.1 hc
  obtain ⟨r, hr', hof⟩ := hp.resolves hn hpm hnm
  rw [hr] at hr'
  cases hr'
  rcases (hof.2.2 l).1 hl with hl | hl
  · exact .inl ⟨p, hpm, Order.mem_of_mem_rest hl⟩
  · exact .inr ⟨n, hnm, Order.mem_of_mem_rest hl⟩

section Sides

variable {order : Order} {v : Var} {positives negatives : List Clause}

/-- The resolvents of two sides are the clauses that have what two clauses of them have besides the
variable. -/
theorem PivotsOn.mem_resolvents_iff (hp : PivotsOn order v .positive positives)
    (hn : PivotsOn order v .negative negatives) {c : Clause} (hne : c.lits ≠ []) :
    c ∈ resolvents order positives negatives ↔
      ∃ p ∈ positives, ∃ n ∈ negatives, c.ResolventOf v p n := by
  rw [mem_resolvents]
  constructor
  · intro h
    obtain ⟨p, hpm, n, hnm, hr⟩ := h
    obtain ⟨r, hr', hof⟩ := hp.resolves hn hpm hnm
    rw [hr] at hr'
    cases hr'
    exact ⟨p, hpm, n, hnm, hof.resolventOf (hp p hpm) (hn n hnm)⟩
  · intro h
    obtain ⟨p, hpm, n, hnm, hc⟩ := h
    exact ⟨p, hpm, n, hnm, hc.resolve hne (hp p hpm) (hn n hnm)⟩

/-- The empty clause is derived exactly if both sides have the unit. -/
theorem PivotsOn.refutes_iff (hp : PivotsOn order v .positive positives)
    (hn : PivotsOn order v .negative negatives) :
    Refutes order positives negatives ↔
      (∃ p ∈ positives, p.lits = [⟨v, .positive⟩]) ∧
        ∃ n ∈ negatives, n.lits = [⟨v, .negative⟩] := by
  constructor
  · intro h
    obtain ⟨p, hpm, n, hnm, hempty⟩ := h
    obtain ⟨hpu, hnu⟩ := (hp.resolve_eq_empty_iff hn hpm hnm).1 hempty
    exact ⟨⟨p, hpm, hpu⟩, ⟨n, hnm, hnu⟩⟩
  · intro h
    obtain ⟨⟨p, hpm, hpu⟩, ⟨n, hnm, hnu⟩⟩ := h
    exact ⟨p, hpm, n, hnm, (hp.resolve_eq_empty_iff hn hpm hnm).2 ⟨hpu, hnu⟩⟩

/-- A clause gives with each clause of the other side a resolvent or a tautology, unless it gives
the empty clause. -/
theorem PivotsOn.length_filterMap_add_countP {p : Clause}
    (hp : order.pivot? p.lits = some ⟨v, .positive⟩) (hn : PivotsOn order v .negative negatives)
    (hne : ∀ n ∈ negatives, resolve order p.lits n.lits ≠ .ok .empty) :
    (negatives.filterMap (resolvent? order p)).length + negatives.countP (clash order p) =
      negatives.length := by
  induction negatives with
  | nil => rfl
  | cons n negatives ih =>
    have hrest := ih (fun c hc => hn c (List.mem_cons_of_mem n hc))
      (fun c hc => hne c (List.mem_cons_of_mem n hc))
    obtain ⟨r, hr, hof⟩ := resolve_of_pivots p.canonical n.canonical hp (hn n List.mem_cons_self)
    cases r with
    | empty => exact absurd hr (hne n List.mem_cons_self)
    | tautology written =>
      have hnone : resolvent? order p n = none := by simp [resolvent?, hr]
      have hclash : clash order p n = true := by simp [clash, hr]
      rw [List.filterMap_cons_none hnone, List.countP_cons_of_pos hclash, List.length_cons]
      omega
    | clause lits =>
      have hsome : resolvent? order p n = some ⟨lits, hof.1⟩ := resolvent?_eq_some_iff.2 hr
      have hclash : ¬ clash order p n = true := by simp [clash, hr]
      rw [List.filterMap_cons_some hsome, List.countP_cons_of_neg hclash, List.length_cons,
        List.length_cons]
      omega

/-- Every pair of clauses gives a resolvent or a tautology, unless one gives the empty clause. -/
theorem PivotsOn.length_resolvents_add_tautologies (hp : PivotsOn order v .positive positives)
    (hn : PivotsOn order v .negative negatives) (hrefutes : ¬ Refutes order positives negatives) :
    (resolvents order positives negatives).length + tautologies order positives negatives =
      positives.length * negatives.length := by
  induction positives with
  | nil => rw [List.length_nil, Nat.zero_mul]; rfl
  | cons p positives ih =>
    have hrest := ih (fun c hc => hp c (List.mem_cons_of_mem p hc)) (by
      intro h
      obtain ⟨q, hq, hr⟩ := h
      exact hrefutes ⟨q, List.mem_cons_of_mem p hq, hr⟩)
    have hfirst := hn.length_filterMap_add_countP (hp p List.mem_cons_self) (by
      intro n hnm hempty
      exact hrefutes ⟨p, List.mem_cons_self, n, hnm, hempty⟩)
    simp only [resolvents, tautologies, List.flatMap_cons, List.map_cons, List.sum_cons,
      List.length_append, List.length_cons, Nat.succ_mul] at hrest ⊢
    omega

end Sides

/-! ## The buckets of a harvest -/

namespace Task.Harvest

/-- All clauses of a harvest. -/
def clauses (h : Harvest) : List Clause := h.toList.flatMap Bucket.allClauses

theorem nodup_toList (m : Std.TreeMap Nat Bucket) : m.toList.Nodup :=
  m.distinct_keys_toList.imp fun {x y} hxy heq => hxy (by rw [heq]; exact Std.ReflCmp.compare_self)

/-- The entries of a map are listed in some order. -/
theorem toList_perm {m : Std.TreeMap Nat Bucket} {entries : List (Nat × Bucket)}
    (hnodup : entries.Nodup) (hmem : ∀ k b, (k, b) ∈ entries ↔ m[k]? = some b) :
    m.toList.Perm entries := by
  refine (List.perm_ext_iff_of_nodup (nodup_toList m) hnodup).2 fun x => ?_
  rw [hmem, Std.TreeMap.mem_toList_iff_getElem?_eq_some]

/-- The harvest with the bucket of a number replaced. -/
theorem buckets_put_takeOut (h : Harvest) (b : Bucket) (new : Bool) :
    (((h.takeOut b.var.number).2.put b new).buckets) =
      (h.buckets.erase b.var.number).insert b.var.number b := rfl

theorem getElem?_put_takeOut (h : Harvest) (b : Bucket) (new : Bool) (k : Nat) :
    ((h.takeOut b.var.number).2.put b new).buckets[k]? =
      if k = b.var.number then some b else h.buckets[k]? := by
  rw [buckets_put_takeOut, Std.TreeMap.getElem?_insert]
  by_cases hk : k = b.var.number
  · simp [hk]
  · have hk' : ¬ b.var.number = k := fun e => hk e.symm
    simp [hk, hk', Std.TreeMap.getElem?_erase]

/-- Replacing a bucket exchanges its clauses for those of the new one. -/
theorem clauses_put_takeOut (h : Harvest) (b : Bucket) (new : Bool) :
    ∃ others,
      h.clauses.Perm ((h.buckets[b.var.number]?).elim [] Bucket.allClauses ++ others) ∧
        ((h.takeOut b.var.number).2.put b new).clauses.Perm (b.allClauses ++ others) := by
  let k := b.var.number
  let others := h.buckets.toList.filter fun e => e.1 ≠ k
  have hothers : ∀ j d, (j, d) ∈ others ↔ j ≠ k ∧ h.buckets[j]? = some d := by
    intro j d
    simp only [others, List.mem_filter, Std.TreeMap.mem_toList_iff_getElem?_eq_some,
      decide_eq_true_eq]
    exact and_comm
  have hnodup : others.Nodup := (nodup_toList h.buckets).sublist List.filter_sublist
  have hnodup' : ∀ d, ((k, d) :: others).Nodup := fun d =>
    List.nodup_cons.2 ⟨fun hd => ((hothers k d).1 hd).1 rfl, hnodup⟩
  refine ⟨(others.map Prod.snd).flatMap Bucket.allClauses, ?_, ?_⟩
  · have hold : h.buckets.toList.Perm ((h.buckets[k]?).elim [] (fun d => [(k, d)]) ++ others) := by
      cases hk : h.buckets[k]? with
      | none =>
        refine toList_perm hnodup fun j d => ?_
        show (j, d) ∈ others ↔ _
        rw [hothers]
        refine ⟨And.right, fun hd => ⟨?_, hd⟩⟩
        rintro rfl
        rw [hk] at hd
        cases hd
      | some d₀ =>
        refine toList_perm (hnodup' d₀) fun j d => ?_
        show (j, d) ∈ (k, d₀) :: others ↔ _
        rw [List.mem_cons, hothers, Prod.mk.injEq]
        constructor
        · rintro (⟨rfl, rfl⟩ | ⟨-, hd⟩)
          · exact hk
          · exact hd
        · intro hd
          by_cases hj : j = k
          · subst hj
            rw [hk] at hd
            cases hd
            exact .inl ⟨rfl, rfl⟩
          · exact .inr ⟨hj, hd⟩
    have := (hold.map Prod.snd).flatMap_right Bucket.allClauses
    rw [List.map_append, List.flatMap_append] at this
    refine this.trans (List.Perm.append_right _ ?_)
    cases h.buckets[k]? <;> simp
  · have hnew : ((h.takeOut k).2.put b new).buckets.toList.Perm ((k, b) :: others) := by
      refine toList_perm (hnodup' b) fun j d => ?_
      rw [List.mem_cons, hothers, Prod.mk.injEq, getElem?_put_takeOut]
      by_cases hj : j = b.var.number
      · simp [hj, k, eq_comm]
      · simp [hj, k]
    have := (hnew.map Prod.snd).flatMap_right Bucket.allClauses
    rwa [List.map_cons, List.flatMap_cons] at this

/-- The harvest has the resolvents `found`, each once and in a bucket of its pivot that comes after
`v`, and its counters are right. -/
structure Holds (order : Order) (v : Var) (found : List Clause) (tautologies : Nat)
    (h : Harvest) : Prop where
  bucket : ∀ (k : Nat) (b : Bucket), h.buckets[k]? = some b →
    b.WellFormed ∧ b.order = order ∧ b.var.number = k ∧ order.precedes v b.var = true ∧
      b.allClauses ≠ []
  mem_clauses : ∀ c, c ∈ h.clauses ↔ c ∈ found
  resolvents_eq : h.stats.resolvents = found.length
  tautologies_eq : h.stats.tautologies = tautologies
  length_eq : h.stats.duplicates + h.clauses.length = found.length

theorem clauses_empty : empty.clauses = [] := rfl

theorem holds_empty (order : Order) (v : Var) : empty.Holds order v [] 0 where
  bucket := fun k b hb => by simp [empty] at hb
  mem_clauses := fun c => by rw [clauses_empty]
  resolvents_eq := rfl
  tautologies_eq := rfl
  length_eq := by rw [clauses_empty]; rfl

theorem Holds.countTautology {order : Order} {v : Var} {found : List Clause} {n : Nat} {h : Harvest}
    (hh : h.Holds order v found n) : h.countTautology.Holds order v found (n + 1) where
  bucket := hh.bucket
  mem_clauses := hh.mem_clauses
  resolvents_eq := hh.resolvents_eq
  tautologies_eq := congrArg (· + 1) hh.tautologies_eq
  length_eq := hh.length_eq

/-- Every bucket of a harvest is well formed and comes later than the eliminated variable. -/
theorem Holds.of_mem_toList {order : Order} {v : Var} {found : List Clause} {n : Nat} {h : Harvest}
    (hh : h.Holds order v found n) {b : Bucket} (hb : b ∈ h.toList) :
    b.WellFormed ∧ b.order = order ∧ order.precedes v b.var = true ∧ b.allClauses ≠ [] := by
  obtain ⟨⟨k, d⟩, hd, rfl⟩ := List.mem_map.1 hb
  obtain ⟨hwf, horder, -, hlater⟩ :=
    hh.bucket k d (Std.TreeMap.mem_toList_iff_getElem?_eq_some.1 hd)
  exact ⟨hwf, horder, hlater⟩

end Task.Harvest

/-! ## Resolving -/

namespace Task

/-- A share of the work on a well formed bucket. -/
structure WellFormed (t : Task) : Prop where
  bucket : t.bucket.WellFormed
  negatives_mem : ∀ c ∈ t.negatives, c ∈ t.bucket.clauses .negative

section

variable {t : Task}

theorem WellFormed.pivotsOn_negatives (h : t.WellFormed) :
    PivotsOn t.bucket.order t.bucket.var .negative t.negatives := fun c hc =>
  h.bucket.pivot_of_mem (h.negatives_mem c hc)

open Harvest

/-- A resolvent is kept in the bucket of its pivot. -/
theorem keep_holds {c : Clause} {found : List Clause} {n : Nat} {h : Harvest}
    (hne : c.lits ≠ []) (hlater : ∀ l ∈ c.lits, t.bucket.order.precedes t.bucket.var l.var = true)
    (hh : h.Holds t.bucket.order t.bucket.var found n) :
    ∃ h', t.keep c.lits h = .ok h' ∧ h'.Holds t.bucket.order t.bucket.var (found ++ [c]) n := by
  obtain ⟨⟨w, p⟩, hpivot⟩ : ∃ l, t.bucket.order.pivot? c.lits = some l := by
    cases hp : t.bucket.order.pivot? c.lits with
    | none => exact absurd (Order.pivot?_eq_none_iff.1 hp) hne
    | some l => exact ⟨l, rfl⟩
  have hw := hlater _ (Order.pivot_mem hpivot)
  -- the bucket that receives the clause is an old one of the harvest, or a fresh one
  let old := (h.buckets[w.number]?).getD (Bucket.empty w t.bucket.order t.bucket.capacity)
  obtain ⟨hwf, horder, hvar⟩ : old.WellFormed ∧ old.order = t.bucket.order ∧ old.var = w := by
    cases hold : h.buckets[w.number]? with
    | none =>
      simp only [old, hold, Option.getD_none]
      exact ⟨Bucket.wellFormed_empty _ _ _, rfl, rfl⟩
    | some b =>
      obtain ⟨hwf, horder, hnumber, -⟩ := hh.bucket _ b hold
      simp [old, hold, hwf, horder, Var.ext_number hnumber]
  have hold : (h.buckets[w.number]?).elim [] Bucket.allClauses = old.allClauses := by
    cases hold : h.buckets[w.number]? <;> simp [old, hold]
    rfl
  have hp : old.order.pivot? c.lits = some ⟨old.var, p⟩ := by rw [horder, hvar, hpivot]
  have hkeep : t.keep c.lits h =
      .ok ((h.takeOut w.number).2.put (old.store c ⟨old.var, p⟩).1
        (old.store c ⟨old.var, p⟩).2) := by
    have hadd : old.add c p = .ok (old.store c ⟨old.var, p⟩) := Bucket.add_of_pivot hp
    have htaken : (h.takeOut w.number).1.getD (Bucket.empty w t.bucket.order t.bucket.capacity) =
        old := rfl
    simp only [keep, hpivot, hw, if_true, Clause.ofLits_lits, htaken, hadd]
  obtain ⟨hwf', hvar', horder', -⟩ := hwf.store hp
  obtain ⟨hmem, hlength⟩ := hwf.allClauses_store hp
  generalize old.store c ⟨old.var, p⟩ = stored at *
  obtain ⟨b, new⟩ := stored
  simp only at *
  obtain rfl : b.var = w := hvar'.trans hvar
  obtain ⟨others, hbefore, hafter⟩ := clauses_put_takeOut h b new
  rw [hold] at hbefore
  refine ⟨_, hkeep, fun k d hd => ?_, fun d => ?_, ?_, hh.tautologies_eq, ?_⟩
  · rw [getElem?_put_takeOut] at hd
    split at hd
    · rename_i hk
      cases hd
      exact ⟨hwf', horder'.trans horder, hk.symm, hw, List.ne_nil_of_mem ((hmem c).2 (.inr rfl))⟩
    · exact hh.bucket k d hd
  · rw [hafter.mem_iff, List.mem_append, hmem, List.mem_append, List.mem_singleton,
      ← hh.mem_clauses, hbefore.mem_iff, List.mem_append]
    exact or_right_comm
  · show h.stats.resolvents + 1 = _
    rw [hh.resolvents_eq, List.length_append]
    rfl
  · show (if new then h.stats.duplicates else h.stats.duplicates + 1) + _ = _
    have hlen := hh.length_eq
    rw [hbefore.length_eq, List.length_append] at hlen
    rw [hafter.length_eq, List.length_append, List.length_append, hlength, List.length_singleton]
    cases new <;> simp <;> omega

/-- A resolvent of clauses of the eliminated variable has variables that come later, and at least
one. -/
theorem resolvent_later {order : Order} {v : Var} {p n c : Clause}
    (hp : order.pivot? p.lits = some ⟨v, .positive⟩)
    (hn : order.pivot? n.lits = some ⟨v, .negative⟩)
    (hr : resolve order p.lits n.lits = .ok (.clause c.lits)) :
    c.lits ≠ [] ∧ ∀ l ∈ c.lits, order.precedes v l.var = true := by
  obtain ⟨r, hr', hof⟩ := resolve_of_pivots p.canonical n.canonical hp hn
  rw [hr] at hr'
  cases hr'
  exact ⟨hof.2.1, fun l hl => hof.precedes p.canonical n.canonical hp hn hl⟩

/-- Resolving one positive clause with negative ones gathers their resolvents, unless the empty
clause is among them. -/
theorem resolveWith_holds {p : Clause} {ns : List Clause} {found : List Clause} {k : Nat}
    {h : Harvest} (hp : t.bucket.order.pivot? p.lits = some ⟨t.bucket.var, .positive⟩)
    (hns : PivotsOn t.bucket.order t.bucket.var .negative ns)
    (hh : h.Holds t.bucket.order t.bucket.var found k) :
    ∃ refuted h', t.resolveWith p ns h = .ok (refuted, h') ∧
      (refuted = true ↔ Refutes t.bucket.order [p] ns) ∧
      (refuted = false → h'.Holds t.bucket.order t.bucket.var
        (found ++ resolvents t.bucket.order [p] ns) (k + tautologies t.bucket.order [p] ns)) := by
  induction ns generalizing found k h with
  | nil =>
    refine ⟨false, h, rfl, ?_, fun _ => by simpa [resolvents, tautologies] using hh⟩
    simp [Refutes]
  | cons n ns ih =>
    have hn := hns n List.mem_cons_self
    have hns' : PivotsOn t.bucket.order t.bucket.var .negative ns :=
      fun c hc => hns c (List.mem_cons_of_mem _ hc)
    obtain ⟨r, hr, hof⟩ := resolve_of_pivots p.canonical n.canonical hp hn
    have hrefutes : r ≠ .empty →
        (Refutes t.bucket.order [p] (n :: ns) ↔ Refutes t.bucket.order [p] ns) := by
      intro hne
      simp [Refutes, hr, hne]
    cases r with
    | empty =>
      refine ⟨true, h, by rw [resolveWith, hr], ?_, by simp⟩
      simp only [true_iff]
      exact ⟨p, List.mem_singleton_self p, n, List.mem_cons_self, hr⟩
    | tautology written =>
      obtain ⟨refuted, h', hrun, hiff, hholds⟩ := ih hns' hh.countTautology
      refine ⟨refuted, h', by rw [resolveWith, hr]; exact hrun, ?_, fun hf => ?_⟩
      · rw [hiff, hrefutes (by simp)]
      · have := hholds hf
        simpa [resolvents, tautologies, resolvent?, clash, hr, Nat.add_comm, Nat.add_left_comm]
          using this
    | clause lits =>
      obtain ⟨c, rfl⟩ : ∃ c : Clause, c.lits = lits := ⟨⟨lits, hof.1⟩, rfl⟩
      obtain ⟨hne, hlater⟩ := resolvent_later hp hn hr
      obtain ⟨h₁, hkeep, hh₁⟩ := keep_holds hne hlater hh
      obtain ⟨refuted, h', hrun, hiff, hholds⟩ := ih hns' hh₁
      refine ⟨refuted, h', by rw [resolveWith, hr]; simp only [hkeep]; exact hrun, ?_, fun hf => ?_⟩
      · rw [hiff, hrefutes (by simp)]
      · have := hholds hf
        have hc : resolvent? t.bucket.order p n = some c := resolvent?_eq_some_iff.2 hr
        simpa [resolvents, tautologies, hc, clash, hr] using this

end

end Task

end BucketElimination
