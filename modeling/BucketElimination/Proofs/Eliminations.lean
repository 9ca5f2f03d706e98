import BucketElimination.Proofs.Dealing
import BucketElimination.Proofs.Interleaving
set_option autoImplicit false

/-!
# Eliminations: what every schedule achieves

The tasks of a bucket share out its negative clauses, so together they meet every pair of clauses of
the bucket.  Every schedule that ends without the empty clause therefore leaves the same clauses in
the row and the same counts, and every schedule of a bucket with clashing units ends with the empty
clause.
-/

namespace BucketElimination.Machine

variable {config : Config} {step : Nat} {v : Var}

/-- What eliminating the variable of a bucket amounts to when the empty clause is not derived. -/
structure Eliminated (order : Order) (bucket : Bucket) (s s' : Sweep) : Prop where
  wellFormed : s'.row.WellFormed order
  size_eq : s'.row.size = s.row.size
  /-- The clauses of the bucket give way to their resolvents. -/
  mem_clauses : ∀ c, c ∈ s'.row.clauses ↔ c ∈ s.row.clauses ∧ c ∉ bucket.allClauses ∨
    c ∈ resolvents order (bucket.clauses .positive) (bucket.clauses .negative)
  not_refutes : ¬ Refutes order (bucket.clauses .positive) (bucket.clauses .negative)
  bucketsEliminated_eq : s'.stats.bucketsEliminated = s.stats.bucketsEliminated +
    if bucket.clauses .positive = [] ∨ bucket.clauses .negative = [] then 0 else 1
  bucketsSkipped_eq : s'.stats.bucketsSkipped = s.stats.bucketsSkipped +
    if bucket.clauses .positive = [] ∨ bucket.clauses .negative = [] then 1 else 0
  resolvents_eq : s'.stats.resolvents = s.stats.resolvents +
    (resolvents order (bucket.clauses .positive) (bucket.clauses .negative)).length
  tautologies_eq : s'.stats.tautologies = s.stats.tautologies +
    tautologies order (bucket.clauses .positive) (bucket.clauses .negative)
  duplicates_eq : s'.stats.duplicateResolvents + s'.row.clauses.length + bucket.allClauses.length =
    s.stats.duplicateResolvents + s.row.clauses.length +
      (resolvents order (bucket.clauses .positive) (bucket.clauses .negative)).length

/-- Without clauses on one side there is nothing to resolve. -/
theorem resolvents_of_pure (order : Order) {ps ns : List Clause} (h : ps = [] ∨ ns = []) :
    resolvents order ps ns = [] ∧ tautologies order ps ns = 0 ∧ ¬ Refutes order ps ns := by
  rcases h with rfl | rfl
  · exact ⟨rfl, rfl, by simp [Refutes]⟩
  · refine ⟨by simp [resolvents], ?_, by simp [Refutes]⟩
    induction ps with
    | nil => rfl
    | cons p ps ih =>
      rw [tautologies, List.map_cons, List.sum_cons, List.countP_nil, Nat.zero_add]
      exact ih

/-! ## Shares of a bucket -/

section

variable {bucket : Bucket} {hands : List (List Clause)}

variable (config step bucket hands) in
/-- The tasks are the bucket with each of the hands. -/
theorem map_tasks :
    (Sweep.tasks config step bucket hands).map (fun t => (t.bucket, t.negatives)) =
      hands.map fun negatives => (bucket, negatives) := by
  apply List.ext_getElem?
  intro i
  simp only [Sweep.tasks, List.getElem?_map, List.getElem?_mapIdx, Option.map_map]
  rfl

theorem of_mem_tasks {t : Task} (ht : t ∈ Sweep.tasks config step bucket hands) :
    t.bucket = bucket ∧ t.negatives ∈ hands := by
  have hmem := List.mem_map_of_mem (f := fun t : Task => (t.bucket, t.negatives)) ht
  rw [map_tasks] at hmem
  obtain ⟨negatives, hmem, heq⟩ := List.mem_map.1 hmem
  cases heq
  exact ⟨rfl, hmem⟩

variable (config step bucket) in
theorem exists_mem_tasks {negatives : List Clause} (h : negatives ∈ hands) :
    ∃ t ∈ Sweep.tasks config step bucket hands, t.bucket = bucket ∧ t.negatives = negatives := by
  have hmem : (bucket, negatives) ∈ (Sweep.tasks config step bucket hands).map
      (fun t => (t.bucket, t.negatives)) := by
    rw [map_tasks]
    exact List.mem_map_of_mem h
  obtain ⟨t, ht, heq⟩ := List.mem_map.1 hmem
  cases heq
  exact ⟨t, ht, rfl, rfl⟩

variable (hperm : hands.flatten.Perm (bucket.clauses .negative))

include hperm in
/-- What is counted per negative clause adds up over the tasks. -/
theorem sum_tasks {f : Bucket → List Clause → Nat} (hnil : ∀ b, f b [] = 0)
    (happend : ∀ b ns ms, f b (ns ++ ms) = f b ns + f b ms)
    (hcount : ∀ b ns ms, ns.Perm ms → f b ns = f b ms) :
    ((Sweep.tasks config step bucket hands).map fun t => f t.bucket t.negatives).sum =
      f bucket (bucket.clauses .negative) := by
  have hflatten : ∀ hs : List (List Clause), (hs.map (f bucket)).sum =
      f bucket hs.flatten := by
    intro hs
    induction hs with
    | nil => exact (hnil bucket).symm
    | cons ns hs ih => rw [List.map_cons, List.sum_cons, ih, List.flatten_cons, happend]
  have hmap := congrArg (List.map fun x : Bucket × List Clause => f x.1 x.2)
    (map_tasks config step bucket hands)
  rw [List.map_map, List.map_map] at hmap
  exact (congrArg List.sum hmap).trans ((hflatten hands).trans (hcount _ _ _ hperm))

variable (config step) in
include hperm in
/-- The tasks together meet every pair of clauses of the bucket. -/
theorem exists_pair_iff (P : Bucket → Clause → Clause → Prop) :
    (∃ t ∈ Sweep.tasks config step bucket hands, ∃ p ∈ t.bucket.clauses .positive,
        ∃ n ∈ t.negatives, P t.bucket p n) ↔
      ∃ p ∈ bucket.clauses .positive, ∃ n ∈ bucket.clauses .negative, P bucket p n := by
  constructor
  · rintro ⟨t, ht, p, hp, n, hn, hpair⟩
    obtain ⟨hbucket, hhand⟩ := of_mem_tasks ht
    rw [hbucket] at hp hpair
    exact ⟨p, hp, n, hperm.mem_iff.1 (List.mem_flatten.2 ⟨_, hhand, hn⟩), hpair⟩
  · rintro ⟨p, hp, n, hn, hpair⟩
    obtain ⟨hand, hhand, hn⟩ := List.mem_flatten.1 (hperm.mem_iff.2 hn)
    obtain ⟨t, ht, hbucket, hnegatives⟩ := exists_mem_tasks config step bucket hhand
    refine ⟨t, ht, p, ?_, n, ?_, ?_⟩
    · rwa [hbucket]
    · rwa [hnegatives]
    · rwa [hbucket]

end

/-! ## From taking the bucket to the result -/

section

variable {m m' : Machine} {bucket : Bucket} {hands : List (List Clause)}

/-- A bucket has nothing to resolve exactly if a side has no clauses. -/
theorem size_eq_zero_iff (h : bucket.WellFormed) :
    bucket.size .positive = 0 ∨ bucket.size .negative = 0 ↔
      bucket.clauses .positive = [] ∨ bucket.clauses .negative = [] := by
  rw [h.size_eq, h.size_eq, List.length_eq_zero_iff, List.length_eq_zero_iff]

variable (config step) in
/-- Of a bucket without clauses on one side nothing is left. -/
theorem takeBucket_of_pure (hwf : bucket.WellFormed) (hget : m.sweep.row.get v = .ok bucket)
    (hpure : bucket.clauses .positive = [] ∨ bucket.clauses .negative = []) :
    m.takeBucket config step v = { m with
      stage := .returned (.ok false)
      sweep := { { m.sweep with row := m.sweep.row.set v bucket.emptied }.note (.bucketTaken bucket)
        with stats := { m.sweep.stats with
          bucketsSkipped := m.sweep.stats.bucketsSkipped + 1 } }.note
            (.nothingToResolve v (bucket.size .positive) (bucket.size .negative)) } := by
  simp only [takeBucket, Row.take_of_get hget, if_pos ((size_eq_zero_iff hwf).2 hpure)]
  rfl

variable (config step) in
/-- With clauses on both sides the negative ones are dealt to tasks, all of which are still to be
submitted. -/
theorem takeBucket_of_both (hidle : m.Idle) (hwf : bucket.WellFormed)
    (hget : m.sweep.row.get v = .ok bucket)
    (hboth : ¬ (bucket.clauses .positive = [] ∨ bucket.clauses .negative = [])) :
    ∃ hands, hands.flatten.Perm (bucket.clauses .negative) ∧
      m.takeBucket config step v = { m with
        stage := .submitting bucket.var (Sweep.tasks config step bucket hands) hands.length
        sweep := ({ m.sweep with row := m.sweep.row.set v bucket.emptied }.note
          (.bucketTaken bucket)).note (.resolving bucket.var (bucket.size .positive)
            (bucket.size .negative) hands.length) } := by
  obtain ⟨hands, hdeal, -, hperm⟩ := hwf.dealNegatives hidle.size_pos fun hnil => hboth (.inr hnil)
  refine ⟨hands, hperm, ?_⟩
  simp only [takeBucket, Row.take_of_get hget]
  rw [if_neg fun h => hboth ((size_eq_zero_iff hwf).1 h)]
  simp only [Sweep.note, hdeal, hidle.uncancelled]
  rfl

variable (step) in
/-- A bucket without clauses on one side is thrown away. -/
theorem eliminated_of_pure (hrow : m.sweep.row.WellFormed config.order)
    (hget : m.sweep.row.get v = .ok bucket)
    (hpure : bucket.clauses .positive = [] ∨ bucket.clauses .negative = []) :
    (m.takeBucket config step v).stage = .returned (.ok false) ∧
      Eliminated config.order bucket m.sweep (m.takeBucket config step v).sweep := by
  obtain ⟨hwf, horder, hvar⟩ := hrow.get hget
  obtain ⟨hwf', hmem, hlength⟩ := hrow.take hget
  obtain ⟨hresolvents, htautologies, hrefutes⟩ := resolvents_of_pure config.order hpure
  rw [takeBucket_of_pure config step hwf hget hpure]
  refine ⟨rfl, hwf', Row.size_set _ _ _, fun c => ?_, hrefutes, ?_, ?_, ?_, ?_, ?_⟩
  · rw [hresolvents]
    simpa [Sweep.note] using hmem c
  · rw [if_pos hpure]
    rfl
  · rw [if_pos hpure]
    rfl
  · rw [hresolvents]
    rfl
  · rw [htautologies]
    rfl
  · rw [hresolvents]
    show m.sweep.stats.duplicateResolvents +
      (m.sweep.row.set v bucket.emptied).clauses.length + _ = _
    simp only [List.length_nil]
    omega

/-- The shares of a bucket are well formed tasks. -/
theorem wellFormed_of_mem_tasks (hwf : bucket.WellFormed)
    (hperm : hands.flatten.Perm (bucket.clauses .negative)) {t : Task}
    (ht : t ∈ Sweep.tasks config step bucket hands) :
    t.WellFormed ∧ t.bucket.order = bucket.order := by
  obtain ⟨hbucket, hhand⟩ := of_mem_tasks ht
  refine ⟨⟨hbucket ▸ hwf, fun c hc => ?_⟩, hbucket ▸ rfl⟩
  rw [hbucket]
  exact hperm.mem_iff.1 (List.mem_flatten.2 ⟨_, hhand, hc⟩)

variable (step) in
/-- With clauses on both sides the tasks are under way. -/
theorem tracks_takeBucket (hidle : m.Idle) (hrow : m.sweep.row.WellFormed config.order)
    (hget : m.sweep.row.get v = .ok bucket)
    (hboth : ¬ (bucket.clauses .positive = [] ∨ bucket.clauses .negative = [])) :
    ∃ hands, hands.flatten.Perm (bucket.clauses .negative) ∧
      Tracks config.order (m.sweep.row.set v bucket.emptied) m.sweep.stats
        (Sweep.tasks config step bucket hands) (m.takeBucket config step v) := by
  obtain ⟨hwf, horder, hvar⟩ := hrow.get hget
  obtain ⟨hwf', hmem, hlength⟩ := hrow.take hget
  obtain ⟨hands, hperm, htake⟩ := takeBucket_of_both config step hidle hwf hget hboth
  refine ⟨hands, hperm, ?_⟩
  rw [htake]
  refine ⟨[], [], ?_, ?_, Row.Grows.refl hwf' _, ?_, by simp, by simp, rfl, fun _ => ?_⟩
  · show m.sweep.pool.finished.map Prod.snd = _
    rw [hidle.finished_eq]
    rfl
  · show (Sweep.tasks config step bucket hands ++ m.sweep.pool.queued.map Prod.snd ++
      m.workers.map Worker.task ++ _ ++ _).Perm _
    rw [hidle.queued_eq, hidle.workers_eq]
    simp
  · show ∀ w ∈ m.workers, _
    simp [hidle.workers_eq]
  · show _ = _ + (m.workers.map Worker.added).sum + _ + _
    simp [hidle.workers_eq, Sweep.note]

/-- When all tasks of the bucket were received, its variable is eliminated. -/
theorem Completed.eliminated {s : Sweep} (hrow : m.sweep.row.WellFormed config.order)
    (hget : m.sweep.row.get v = .ok bucket)
    (hboth : ¬ (bucket.clauses .positive = [] ∨ bucket.clauses .negative = []))
    (hperm : hands.flatten.Perm (bucket.clauses .negative))
    (h : Completed config.order (m.sweep.row.set v bucket.emptied) m.sweep.stats
      (Sweep.tasks config step bucket hands) s) : Eliminated config.order bucket m.sweep s := by
  obtain ⟨hwf, horder, hvar⟩ := hrow.get hget
  obtain ⟨hwf', hmem, hlength⟩ := hrow.take hget
  have hresolvents : ((Sweep.tasks config step bucket hands).map fun t => t.resolvents.length).sum =
      (resolvents config.order (bucket.clauses .positive) (bucket.clauses .negative)).length := by
    rw [← horder]
    exact sum_tasks hperm
      (f := fun b ns => (resolvents b.order (b.clauses .positive) ns).length)
      (fun b => congrArg List.length (resolvents_of_pure _ (.inr rfl)).1)
      (fun b ns ms => length_resolvents_append_right _ _ _ _)
      (fun b ns ms hp => (resolvents_perm _ (List.Perm.refl _) hp).length_eq)
  have htautologies : ((Sweep.tasks config step bucket hands).map Task.tautologies).sum =
      tautologies config.order (bucket.clauses .positive) (bucket.clauses .negative) := by
    rw [← horder]
    exact sum_tasks hperm (f := fun b ns => tautologies b.order (b.clauses .positive) ns)
      (fun b => (resolvents_of_pure _ (.inr rfl)).2.1)
      (fun b ns ms => tautologies_append_right _ _ _ _)
      (fun b ns ms hp => tautologies_perm _ (List.Perm.refl _) hp)
  have hfound : ∀ c, (∃ t ∈ Sweep.tasks config step bucket hands, c ∈ t.resolvents) ↔
      c ∈ resolvents config.order (bucket.clauses .positive) (bucket.clauses .negative) := by
    intro c
    simp only [Task.resolvents, mem_resolvents, ← horder]
    exact exists_pair_iff config step hperm
      fun b p n => resolve b.order p.lits n.lits = .ok (.clause c.lits)
  have hduplicates := h.duplicates_eq
  refine ⟨h.grows.wellFormed, h.grows.size_eq.trans (Row.size_set _ _ _), fun c => ?_,
    fun hrefutes => ?_, ?_, ?_, ?_, ?_, ?_⟩
  · rw [← hfound, ← hmem]
    constructor
    · intro hc
      rcases h.grows.only c hc with hc | hc
      · exact .inl hc
      · exact .inr (List.mem_flatMap.1 hc)
    · rintro (hc | ⟨t, ht, hc⟩)
      · exact h.grows.kept c hc
      · exact h.merged t ht c hc
  · obtain ⟨t, ht, hrefutes⟩ := (exists_pair_iff config step hperm
      fun b p n => resolve b.order p.lits n.lits = .ok .empty).2 (horder ▸ hrefutes)
    exact h.not_refutes t ht hrefutes
  · rw [if_neg hboth]
    exact h.bucketsEliminated_eq
  · rw [if_neg hboth]
    exact h.bucketsSkipped_eq
  · rw [← hresolvents]
    exact h.resolvents_eq
  · rw [← htautologies]
    exact h.tautologies_eq
  · rw [← hresolvents]
    omega

/-- With all workers free, the first move is that of the scheduler. -/
theorem Idle.exists_follow?_takeBucket {actions : List Action} (hidle : m.Idle)
    (hfollow : follow? config step v actions { m with stage := .taking } = some m')
    (hstage : m'.stage ≠ .taking) :
    ∃ rest, follow? config step v rest
      ({ m with stage := .taking }.takeBucket config step v) = some m' := by
  rcases actions with _ | ⟨a, actions⟩
  · cases hfollow
    exact absurd rfl hstage
  · unfold follow? at hfollow
    cases a with
    | schedule => exact ⟨actions, hfollow⟩
    | start => simp [move?, start?, Pool.begin?, hidle.queued_eq] at hfollow
    | work position choice => simp [move?, work?, hidle.workers_eq] at hfollow

/-- What a result of eliminating the variable of a bucket says. -/
def Achieves (order : Order) (bucket : Bucket) (s s' : Sweep) : Except Fault Bool → Prop
  | .ok true => Refutes order (bucket.clauses .positive) (bucket.clauses .negative)
  | .ok false => Eliminated order bucket s s'
  | .error _ => ∃ c ∈ bucket.allClauses, ∃ l ∈ c.lits, s.row.size ≤ l.var.index

/-- What every schedule that eliminates a variable achieves. -/
theorem Eliminates.achieves {result : Except Fault Bool} (hidle : m.Idle)
    (hrow : m.sweep.row.WellFormed config.order) (hget : m.sweep.row.get v = .ok bucket)
    (he : Eliminates config step v m m' result) :
    Achieves config.order bucket m.sweep m'.sweep result := by
  obtain ⟨hwf, horder, hvar⟩ := hrow.get hget
  obtain ⟨hstage, actions, hfollow⟩ := he
  obtain ⟨rest, hrest⟩ := hidle.exists_follow?_takeBucket hfollow (by simp [hstage])
  have htake : { m with stage := .taking }.schedule? config step v =
      some ({ m with stage := .taking }.takeBucket config step v) := rfl
  have horderly := hidle.orderly.schedule? htake
  by_cases hpure : bucket.clauses .positive = [] ∨ bucket.clauses .negative = []
  · obtain ⟨hreturned, heliminated⟩ :=
      eliminated_of_pure (m := { m with stage := .taking }) step hrow hget hpure
    have hstay : m' = { m with stage := .taking }.takeBucket config step v := by
      refine follow?_induction
        (P := fun n => n = { m with stage := .taking }.takeBucket config step v) hrest rfl
        fun a n n' hn hmove => ?_
      rw [hn, (horderly.idle hidle.size_pos hreturned).move?_eq_none hreturned] at hmove
      cases hmove
    rw [hstay, hreturned] at hstage
    cases hstage
    rw [hstay]
    exact heliminated
  · obtain ⟨hands, hperm, htracks⟩ :=
      tracks_takeBucket step (hidle.atStage .taking) hrow hget hpure
    obtain ⟨htracks', -⟩ := follow?_induction (P := fun n => Tracks config.order
        (m.sweep.row.set v bucket.emptied) m.sweep.stats (Sweep.tasks config step bucket hands) n ∧
          n.Orderly m.sweep.pool.size) hrest ⟨htracks, horderly⟩ fun a n n' hn hmove =>
      ⟨hn.1.move? (fun t ht => horder ▸ wellFormed_of_mem_tasks hwf hperm ht) hidle.size_pos hn.2
        hmove, hn.2.move? hmove⟩
    rw [Tracks, hstage] at htracks'
    rcases result with f | refuted
    · obtain ⟨t, ht, hcovered⟩ := htracks'
      obtain ⟨hbucket, -⟩ := of_mem_tasks ht
      simpa [Achieves, Task.Covered, hbucket] using hcovered
    · cases refuted with
      | true =>
        rw [Achieves, ← horder]
        exact (exists_pair_iff config step hperm
          fun b p n => resolve b.order p.lits n.lits = .ok .empty).1 htracks'
      | false => exact htracks'.eliminated hrow hget hpure hperm

end

end BucketElimination.Machine
