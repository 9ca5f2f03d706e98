import BucketElimination.Proofs.IndexedBuckets
import BucketElimination.Proofs.WorkerRuns
set_option autoImplicit false

/-!
# Task runs: what a whole task does to a row

A task that runs from beginning to end changes a row in one way only: once everything is resolved, it
merges its resolvents, and each bucket of the row takes on those with its variable as pivot that it
lacks.  A task that is told to stop, or that derives the empty clause, has merged nothing by then.
The order in which the gathered buckets are merged has no part in this, and the counters add up to
the pairs that were resolved and the clauses that were added.
-/

namespace BucketElimination

/-! ## Taking on clauses -/

/-- Each side keeps its clauses in their places and takes on those of the new clauses that have its
literal as pivot and that it lacks, each once. -/
def Bucket.TakesOn (order : Order) (v : Var) (new : Clause → Prop) (b b' : Bucket) : Prop :=
  ∀ p, ∃ added, b'.clauses p = b.clauses p ++ added ∧ added.Nodup ∧
    ∀ c, c ∈ added ↔ new c ∧ order.pivot? c.lits = some ⟨v, p⟩ ∧ c ∉ b.clauses p

/-- Every bucket takes on the new clauses that have its variable as pivot. -/
structure Row.TakesOn (order : Order) (new : Clause → Prop) (r r' : Row) : Prop where
  size_eq : r'.size = r.size
  bucket : ∀ v b, r.get v = .ok b → ∃ b', r'.get v = .ok b' ∧ b.TakesOn order v new b'

/-- The row has a well formed bucket of the variable. -/
def Row.Serves (order : Order) (r : Row) (v : Var) : Prop :=
  ∃ b, r.get v = .ok b ∧ b.WellFormed ∧ b.var = v ∧ b.order = order

namespace Bucket

variable {order : Order} {v : Var} {new new' : Clause → Prop} {b b' b'' other : Bucket}

theorem TakesOn.refl (b : Bucket) (h : ∀ c p, new c → order.pivot? c.lits ≠ some ⟨v, p⟩) :
    b.TakesOn order v new b := by
  intro p
  refine ⟨[], (List.append_nil _).symm, List.nodup_nil, ?_⟩
  intro c
  apply iff_of_false List.not_mem_nil
  intro hc
  exact h c p hc.1 hc.2.1

/-- What is taken on first is not taken on again. -/
theorem TakesOn.trans (h : b.TakesOn order v new b') (h' : b'.TakesOn order v new' b'') :
    b.TakesOn order v (fun c => new c ∨ new' c) b'' := by
  intro p
  obtain ⟨added, hlist, hnodup, hmem⟩ := h p
  obtain ⟨added', hlist', hnodup', hmem'⟩ := h' p
  refine ⟨added ++ added', ?_, List.nodup_append.2 ⟨hnodup, hnodup', ?_⟩, ?_⟩
  · rw [hlist', hlist, List.append_assoc]
  · intro c hc d hd hcd
    rw [← hcd, hmem', hlist] at hd
    exact hd.2.2 (List.mem_append_right _ hc)
  · intro c
    rw [List.mem_append, hmem', hlist, List.mem_append, hmem]
    grind

theorem TakesOn.congr (h : b.TakesOn order v new b')
    (hnew : ∀ c, c.lits ≠ [] → (new c ↔ new' c)) : b.TakesOn order v new' b' := by
  intro p
  obtain ⟨added, hlist, hnodup, hmem⟩ := h p
  refine ⟨added, hlist, hnodup, ?_⟩
  intro c
  rw [hmem]
  apply and_congr_left
  intro hc
  exact hnew c (List.ne_nil_of_mem (Order.pivot_mem hc.1))

theorem UnionOf.takesOn {dropped : Nat} (h : UnionOf b other b' dropped)
    (hother : other.WellFormed) : b.TakesOn other.order other.var (· ∈ other.allClauses) b' := by
  intro p
  obtain ⟨kept, hlist, hnodup, hmem⟩ := h.clauses_eq p
  refine ⟨kept, hlist, hnodup, ?_⟩
  intro c
  rw [hmem, hother.mem_clauses_iff, and_assoc]

end Bucket

namespace Row

variable {order : Order} {new new' : Clause → Prop} {r r' r'' : Row}

theorem TakesOn.refl (r : Row) (h : ∀ c, ¬ new c) : r.TakesOn order new r := by
  refine ⟨rfl, ?_⟩
  intro v b hb
  exact ⟨b, hb, Bucket.TakesOn.refl b fun c _ hc => absurd hc (h c)⟩

theorem TakesOn.trans (h : r.TakesOn order new r') (h' : r'.TakesOn order new' r'') :
    r.TakesOn order (fun c => new c ∨ new' c) r'' := by
  refine ⟨h'.size_eq.trans h.size_eq, ?_⟩
  intro v b hb
  obtain ⟨b', hb', hfirst⟩ := h.bucket v b hb
  obtain ⟨b'', hb'', hsecond⟩ := h'.bucket v b' hb'
  exact ⟨b'', hb'', hfirst.trans hsecond⟩

theorem TakesOn.congr (h : r.TakesOn order new r')
    (hnew : ∀ c : Clause, c.lits ≠ [] → (new c ↔ new' c)) : r.TakesOn order new' r' := by
  refine ⟨h.size_eq, ?_⟩
  intro v b hb
  obtain ⟨b', hb', htakes⟩ := h.bucket v b hb
  exact ⟨b', hb', htakes.congr hnew⟩

end Row

namespace Task

/-! ## Merging -/

theorem Merge.step_of_get {m : Merge} {bucket target : Bucket}
    (hget : m.row.get bucket.var = .ok target) (hvar : target.var = bucket.var) :
    m.step bucket = ({
      row := m.row.set bucket.var (target.absorbSides bucket).1
      dropped := m.dropped + (target.absorbSides bucket).2
      journal := m.journal.push (.merging (bucket.size .positive + bucket.size .negative) bucket.var
        (target.duplicateCount bucket)) }, .ok ()) := by
  simp only [Merge.step, hget, Row.unite_of_get hget hvar]

/-- Merging a bucket: the bucket of its variable takes on its clauses, and those that were there are
counted. -/
theorem Merge.step_takesOn {m : Merge} {bucket : Bucket} (hwf : bucket.WellFormed)
    (hserves : m.row.Serves bucket.order bucket.var) :
    ∃ m', m.step bucket = (m', .ok ()) ∧
      m.row.TakesOn bucket.order (· ∈ bucket.allClauses) m'.row ∧
      (∀ w, m.row.Serves bucket.order w → m'.row.Serves bucket.order w) ∧
      m'.row.clauses.length + m'.dropped =
        m.row.clauses.length + m.dropped + bucket.allClauses.length := by
  obtain ⟨target, hget, htarget, hvar, horder⟩ := hserves
  have hunion := htarget.unionOf hwf hvar.symm horder.symm
  have hset := Row.length_clauses_set hget (target.absorbSides bucket).1
  refine ⟨_, Merge.step_of_get hget hvar, ⟨Row.size_set _ _ _, ?_⟩, ?_, ?_⟩
  · intro w b hb
    rcases eq_or_ne w bucket.var with hw | hw
    · rw [hw, hget, Except.ok.injEq] at hb
      rw [hw, ← hb]
      exact ⟨_, Row.get_set_self hget _, hunion.takesOn hwf⟩
    · refine ⟨b, (Row.get_set_of_ne hw _).trans hb, Bucket.TakesOn.refl b ?_⟩
      intro c p hc hpivot
      exact hw (hwf.var_eq_of_pivot hc hpivot)
  · intro w hw
    rcases eq_or_ne w bucket.var with hv | hv
    · rw [hv]
      exact ⟨_, Row.get_set_self hget _, hunion.wellFormed, hunion.var_eq.trans hvar,
        hunion.order_eq.trans horder⟩
    · obtain ⟨b, hb, hrest⟩ := hw
      exact ⟨b, (Row.get_set_of_ne hv _).trans hb, hrest⟩
  · have hlength := hunion.length_eq
    simp only
    omega

/-- Merging buckets one after the other, in whatever order they come. -/
theorem Merge.run_takesOn {order : Order} {pending : List Bucket} {m : Merge}
    (hpending : ∀ b ∈ pending, b.WellFormed ∧ b.order = order ∧ m.row.Serves order b.var) :
    ∃ m', Merge.run pending m = (m', .ok ()) ∧
      m.row.TakesOn order (· ∈ pending.flatMap Bucket.allClauses) m'.row ∧
      m'.row.clauses.length + m'.dropped =
        m.row.clauses.length + m.dropped + (pending.flatMap Bucket.allClauses).length := by
  induction pending generalizing m with
  | nil =>
    refine ⟨m, rfl, Row.TakesOn.refl m.row ?_, rfl⟩
    intro c
    exact List.not_mem_nil
  | cons bucket pending ih =>
    obtain ⟨hwf, horder, hserves⟩ := hpending bucket List.mem_cons_self
    subst horder
    obtain ⟨m₁, hstep, htakes, hkept, hcount⟩ := Merge.step_takesOn hwf hserves
    have hrest : ∀ b ∈ pending,
        b.WellFormed ∧ b.order = bucket.order ∧ m₁.row.Serves bucket.order b.var := by
      intro b hb
      obtain ⟨hbwf, hborder, hbserves⟩ := hpending b (List.mem_cons_of_mem bucket hb)
      exact ⟨hbwf, hborder, hkept b.var hbserves⟩
    obtain ⟨m₂, hrun, htakes', hcount'⟩ := ih hrest
    refine ⟨m₂, ?_, (htakes.trans htakes').congr ?_, ?_⟩
    · simp only [Merge.run, hstep]
      exact hrun
    · intro c _
      rw [List.flatMap_cons, List.mem_append]
    · rw [List.flatMap_cons, List.length_append]
      omega

/-! ## Resolving -/

/-- What the way in which resolving ended says. -/
def Settles (t : Task) (stop : Nat → Bool) : Ending × Harvest → Prop
  | (.finished, h) => ¬ t.Refutes ∧ h.Holds t.bucket.order t.bucket.var t.resolvents t.tautologies
  | (.unsat, _) => t.Refutes
  | (.cancelled, _) => ∃ i < t.bucket.size .positive, stop i = true

section

variable {t : Task} {stop : Nat → Bool}

/-- The invariant of the loop over the positive clauses: the clauses behind it gave no empty clause,
and their resolvents are gathered. -/
theorem WellFormed.resolveFrom_settles (htask : t.WellFormed) {done positives : List Clause}
    {h : Harvest} (hdone : t.bucket.clauses .positive = done ++ positives)
    (hrefutes : ¬ BucketElimination.Refutes t.bucket.order done t.negatives)
    (hholds : h.Holds t.bucket.order t.bucket.var
      (BucketElimination.resolvents t.bucket.order done t.negatives)
      (BucketElimination.tautologies t.bucket.order done t.negatives)) :
    ∃ result, t.resolveFrom stop done.length positives h = .ok result ∧
      t.Settles stop result := by
  induction positives generalizing done h with
  | nil =>
    rw [List.append_nil] at hdone
    subst hdone
    exact ⟨(.finished, h), rfl, hrefutes, hholds⟩
  | cons positive positives ih =>
    rw [resolveFrom]
    cases hstop : stop done.length with
    | true =>
      refine ⟨(.cancelled, h), rfl, done.length, ?_, hstop⟩
      rw [htask.bucket.size_eq, hdone, List.length_append, List.length_cons]
      omega
    | false =>
      obtain ⟨refuted, h', hrun, hrefuted, hnext⟩ :=
        htask.resolveWith_next hdone hrefutes hholds
      simp only [hrun]
      cases refuted with
      | true => exact ⟨(.unsat, h'), rfl, hrefuted rfl⟩
      | false =>
        obtain ⟨hrefutes', hholds'⟩ := hnext rfl
        have hrest := ih (by rw [hdone, List.append_assoc, List.singleton_append]) hrefutes' hholds'
        rw [List.length_append, List.length_singleton] at hrest
        exact hrest

theorem WellFormed.resolveAll_settles (htask : t.WellFormed) (stop : Nat → Bool) :
    ∃ result, t.resolveAll stop = .ok result ∧ t.Settles stop result := by
  have hdone : t.bucket.clauses .positive = [] ++ t.bucket.clauses .positive := rfl
  refine htask.resolveFrom_settles hdone ?_ (Harvest.holds_empty _ _)
  intro h
  obtain ⟨p, hp, -⟩ := h
  cases hp

/-- A task that is never told to stop ends for the empty clause exactly if it derives it. -/
theorem Settles.eq_unsat_iff {ending : Ending} {h : Harvest} (hsettles : t.Settles stop (ending, h))
    (hclear : ∀ i < t.bucket.size .positive, stop i = false) : ending = .unsat ↔ t.Refutes := by
  cases ending with
  | finished => exact iff_of_false nofun hsettles.1
  | unsat => exact iff_of_true rfl hsettles
  | cancelled =>
    obtain ⟨i, hi, hstop⟩ := hsettles
    rw [hclear i hi] at hstop
    cases hstop

/-! ## Whole tasks -/

/-- A task that ends before it merges leaves the row alone. -/
theorem run_of_ne_finished {ending : Ending} {h : Harvest}
    (hresolve : t.resolveAll stop = .ok (ending, h)) (hne : ending ≠ .finished)
    (shuffler : Shuffler) (row : Row) (journal : Journal) :
    t.run shuffler stop row journal = ((row, journal), .ok ⟨ending, h.stats⟩) := by
  cases ending with
  | finished => exact absurd rfl hne
  | unsat | cancelled => simp only [run, hresolve]

/-- A task that has gathered its resolvents merges all of them, in whatever order. -/
theorem WellFormed.merge_takesOn (htask : t.WellFormed) {h : Harvest} {row : Row}
    (hholds : h.Holds t.bucket.order t.bucket.var t.resolvents t.tautologies)
    (hserves : ∀ c ∈ t.bucket.allClauses, ∀ l ∈ c.lits, row.Serves t.bucket.order l.var)
    (shuffler : Shuffler) (journal : Journal) :
    ∃ m, Merge.run (t.arrange shuffler h.toList) ⟨row, 0, journal⟩ = (m, .ok ()) ∧
      row.TakesOn t.bucket.order (· ∈ t.resolvents) m.row ∧
      h.stats.duplicates + m.dropped + m.row.clauses.length =
        h.stats.resolvents + row.clauses.length := by
  have hperm := t.arrange_perm shuffler h.toList
  have hclauses : ((t.arrange shuffler h.toList).flatMap Bucket.allClauses).Perm h.clauses :=
    hperm.flatMap_right _
  have hpending : ∀ b ∈ t.arrange shuffler h.toList,
      b.WellFormed ∧ b.order = t.bucket.order ∧ row.Serves t.bucket.order b.var := by
    intro b hb
    have hb' : b ∈ h.toList := hperm.mem_iff.1 hb
    obtain ⟨hwf, horder, -, hne⟩ := hholds.of_mem_toList hb'
    obtain ⟨c, hc, l, hl, hvar⟩ := htask.exists_lit_of_resolvents hwf hne fun c hc =>
      (hholds.mem_clauses c).1 (List.mem_flatMap.2 ⟨b, hb', hc⟩)
    exact ⟨hwf, horder, hvar ▸ hserves c hc l hl⟩
  obtain ⟨m, hrun, htakes, hcount⟩ := Merge.run_takesOn (m := ⟨row, 0, journal⟩) hpending
  refine ⟨m, hrun, htakes.congr ?_, ?_⟩
  · intro c _
    rw [hclauses.mem_iff, hholds.mem_clauses]
  · have hlength := hholds.length_eq
    rw [← hholds.resolvents_eq] at hlength
    rw [hclauses.length_eq] at hcount
    simp only at hcount
    omega

end

/-- A task on a bucket, with a list of its negative clauses, ends without a fault on every row that
has buckets for the variables of the clauses, whatever order its seed leads to.  Unless it finishes,
the row is as it was.  If it is never told to stop, it derives the empty clause exactly if both units
are among its clauses.  If it finishes, every bucket has taken on the resolvents with its variable as
pivot; each pair of clauses is counted as a resolvent or a tautology, and of the resolvents those are
counted as duplicates that did not make the row longer. -/
theorem run_exact {t : Task} {v : Var} {order : Order} {row : Row}
    (hbucket : t.bucket.Reachable v order)
    (hnegatives : ∀ c ∈ t.negatives, c ∈ t.bucket.clauses .negative)
    (hrow : ∀ c ∈ t.bucket.allClauses, ∀ l ∈ c.lits,
      ∃ target, row.get l.var = .ok target ∧ target.Reachable l.var order)
    (shuffler : Shuffler) (stop : Nat → Bool) (journal : Journal) :
    ∃ row' journal' outcome, t.run shuffler stop row journal = ((row', journal'), .ok outcome) ∧
      (outcome.ending ≠ .finished → row' = row) ∧
      (outcome.ending = .cancelled → ∃ i < t.bucket.size .positive, stop i = true) ∧
      ((∀ i < t.bucket.size .positive, stop i = false) →
        (outcome.ending = .unsat ↔
          (∃ c ∈ t.bucket.clauses .positive, c.lits = [⟨v, .positive⟩]) ∧
            ∃ c ∈ t.negatives, c.lits = [⟨v, .negative⟩])) ∧
      (outcome.ending = .finished →
        row.TakesOn order (fun c =>
          ∃ p ∈ t.bucket.clauses .positive, ∃ n ∈ t.negatives, c.ResolventOf v p n) row' ∧
        outcome.stats.resolvents + outcome.stats.tautologies =
          t.bucket.size .positive * t.negatives.length ∧
        outcome.stats.duplicates + row'.clauses.length =
          outcome.stats.resolvents + row.clauses.length) := by
  obtain ⟨hwf, rfl, rfl⟩ := hbucket.wellFormed
  have htask : t.WellFormed := ⟨hwf, hnegatives⟩
  have hpositive := hwf.pivotsOn .positive
  have hnegative := htask.pivotsOn_negatives
  have hunits : t.Refutes ↔ _ := hpositive.refutes_iff hnegative
  have hserves : ∀ c ∈ t.bucket.allClauses, ∀ l ∈ c.lits, row.Serves t.bucket.order l.var := by
    intro c hc l hl
    obtain ⟨target, hget, htarget⟩ := hrow c hc l hl
    exact ⟨target, hget, htarget.wellFormed⟩
  obtain ⟨⟨ending, h⟩, hresolve, hsettles⟩ := htask.resolveAll_settles stop
  have hunsat := fun hclear => (hsettles.eq_unsat_iff hclear).trans hunits
  have hcancelled : ending = .cancelled → ∃ i < t.bucket.size .positive, stop i = true := by
    intro hending
    rw [hending] at hsettles
    exact hsettles
  rcases eq_or_ne ending .finished with hending | hending
  · subst hending
    obtain ⟨hrefutes, hholds⟩ := hsettles
    obtain ⟨m, hmerge, htakes, hcount⟩ := htask.merge_takesOn hholds hserves shuffler journal
    have hpairs := hpositive.length_resolvents_add_tautologies hnegative hrefutes
    refine ⟨m.row, m.journal,
      ⟨.finished, { h.stats with duplicates := h.stats.duplicates + m.dropped }⟩, ?_,
      fun hne => absurd rfl hne, hcancelled, hunsat, ?_⟩
    · simp only [run, hresolve, hmerge]
    · intro _
      refine ⟨htakes.congr fun c hne => hpositive.mem_resolvents_iff hnegative hne, ?_, hcount⟩
      rw [hholds.resolvents_eq, hholds.tautologies_eq, hwf.size_eq]
      exact hpairs
  · exact ⟨row, journal, ⟨ending, h.stats⟩, run_of_ne_finished hresolve hending shuffler row journal,
      fun _ => rfl, hcancelled, hunsat, fun hfinished => absurd hfinished hending⟩

/-- The clause of the first variable and the negated second variable twice, against the two clauses
that have the second variable. -/
def crossTask : Task where
  bucket := (Bucket.pairBucket.store Bucket.crossClause ⟨Bucket.pivotVar, .negative⟩).1
  negatives := [Bucket.crossClause, Bucket.crossClause]
  shuffleSeed := some 7

/-- The theorem on four pairs of clauses: two of them clash, the others have the same resolvent, so
the row gains one clause and the other resolvent is counted as a duplicate. -/
theorem run_exact_cross :
    crossTask.bucket.Reachable Bucket.pivotVar .descending ∧
      ∀ shuffler, ∃ row' journal' outcome,
        crossTask.run shuffler (fun _ => false) (.ofCount .descending .standard 2) #[] =
          ((row', journal'), .ok outcome) ∧
        outcome.ending = .finished ∧ outcome.stats.resolvents + outcome.stats.tautologies = 4 := by
  have hbucket : crossTask.bucket.Reachable Bucket.pivotVar .descending :=
    Bucket.reachable_pairBucket.add
      (rfl : Bucket.add _ Bucket.crossClause .negative = .ok (crossTask.bucket, true))
  have hnegatives : ∀ c ∈ crossTask.negatives, c ∈ crossTask.bucket.clauses .negative := by
    decide +kernel
  have hvars : ∀ c ∈ crossTask.bucket.allClauses, ∀ l ∈ c.lits,
      l.var = default ∨ l.var = Bucket.pivotVar := by decide +kernel
  have hrow : ∀ c ∈ crossTask.bucket.allClauses, ∀ l ∈ c.lits, ∃ target,
      (Row.ofCount .descending .standard 2).get l.var = .ok target ∧
        target.Reachable l.var .descending := by
    intro c hc l hl
    rcases hvars c hc l hl with hvar | hvar
    · rw [hvar]
      exact ⟨_, rfl, .empty .standard rfl⟩
    · rw [hvar]
      exact ⟨_, rfl, .empty .standard rfl⟩
  have hnounit : ¬ ∃ c ∈ crossTask.negatives, c.lits = [⟨Bucket.pivotVar, .negative⟩] := by
    decide +kernel
  have hsize : crossTask.bucket.size .positive * crossTask.negatives.length = 4 := by
    decide +kernel
  refine ⟨hbucket, fun shuffler => ?_⟩
  obtain ⟨row', journal', outcome, hrun, -, hcancelled, hunsat, hfinished⟩ :=
    run_exact hbucket hnegatives hrow shuffler (fun _ => false) #[]
  have hending : outcome.ending = .finished := by
    cases hcase : outcome.ending with
    | finished => rfl
    | unsat => exact absurd ((hunsat fun _ _ => rfl).1 hcase).2 hnounit
    | cancelled =>
      obtain ⟨i, -, hstop⟩ := hcancelled hcase
      cases hstop
  refine ⟨row', journal', outcome, hrun, hending, ?_⟩
  rw [(hfinished hending).2.1, hsize]

end Task

end BucketElimination
