import BucketElimination.Proofs.Harvest
import BucketElimination.Proofs.Machine
import BucketElimination.Proofs.RowInvariant
set_option autoImplicit false

/-!
# Worker runs: what a task achieves on a row that others change

A worker resolves the positive clauses of the bucket with its share of the negative ones and merges
what it gathered into the row, bucket by bucket, while other workers do the same.  How far it is
determines what it has gathered and how many clauses it has added to the row, whoever else merged
before it; the row only grows.  A task that ends reports what it achieved.
-/

namespace BucketElimination

/-! ## What a task is to achieve -/

namespace Task

/-- The resolvents of the positive clauses of the bucket with the negative ones of the task. -/
def resolvents (t : Task) : List Clause :=
  BucketElimination.resolvents t.bucket.order (t.bucket.clauses .positive) t.negatives

/-- The number of tautologies that the task meets. -/
def tautologies (t : Task) : Nat :=
  BucketElimination.tautologies t.bucket.order (t.bucket.clauses .positive) t.negatives

/-- The task derives the empty clause if it is not stopped. -/
def Refutes (t : Task) : Prop :=
  BucketElimination.Refutes t.bucket.order (t.bucket.clauses .positive) t.negatives

/-- Whether all clauses of the bucket are over variables for which the row has buckets. -/
def Covered (t : Task) (row : Row) : Prop :=
  ∀ c ∈ t.bucket.allClauses, ∀ l ∈ c.lits, l.var.index < row.size

/-- A task that was not stopped reports what it achieved on the row. -/
def Reports (t : Task) (row : Row) : Except Fault Outcome → Prop
  | .error _ => ¬ t.Covered row
  | .ok outcome =>
    match outcome.ending with
    | .finished => ¬ t.Refutes ∧ outcome.stats.resolvents = t.resolvents.length ∧
        outcome.stats.tautologies = t.tautologies ∧ ∀ c ∈ t.resolvents, c ∈ row.clauses
    | .unsat => t.Refutes
    | .cancelled => False

/-- The task resolves one more positive clause with its negative ones. -/
theorem WellFormed.resolveWith_next {t : Task} (htask : t.WellFormed) {done positives : List Clause}
    {positive : Clause} {h : Harvest}
    (hdone : t.bucket.clauses .positive = done ++ positive :: positives)
    (hrefutes : ¬ BucketElimination.Refutes t.bucket.order done t.negatives)
    (hholds : h.Holds t.bucket.order t.bucket.var
      (BucketElimination.resolvents t.bucket.order done t.negatives)
      (BucketElimination.tautologies t.bucket.order done t.negatives)) :
    ∃ refuted h', t.resolveWith positive t.negatives h = .ok (refuted, h') ∧
      (refuted = true → t.Refutes) ∧
      (refuted = false →
        ¬ BucketElimination.Refutes t.bucket.order (done ++ [positive]) t.negatives ∧
        h'.Holds t.bucket.order t.bucket.var
          (BucketElimination.resolvents t.bucket.order (done ++ [positive]) t.negatives)
          (BucketElimination.tautologies t.bucket.order (done ++ [positive]) t.negatives)) := by
  have hmem : positive ∈ t.bucket.clauses .positive := by simp [hdone]
  obtain ⟨refuted, h', hrun, hiff, hholds'⟩ := resolveWith_holds
    (htask.bucket.pivot_of_mem hmem) htask.pivotsOn_negatives hholds
  refine ⟨refuted, h', hrun, ?_, ?_⟩
  · intro htrue
    obtain ⟨p, hp, n, hn, hempty⟩ := hiff.1 htrue
    rw [List.mem_singleton.1 hp] at hempty
    exact ⟨positive, hmem, n, hn, hempty⟩
  · intro hfalse
    rw [resolvents_append_left, tautologies_append_left]
    refine ⟨?_, hholds' hfalse⟩
    intro hempty
    obtain ⟨p, hp, n, hn, hempty⟩ := hempty
    rcases List.mem_append.1 hp with hp | hp
    · exact hrefutes ⟨p, hp, n, hn, hempty⟩
    · rw [hiff.2 ⟨p, hp, n, hn, hempty⟩] at hfalse
      cases hfalse

/-- The variable of a bucket of resolvents occurs in a clause of the task's bucket. -/
theorem WellFormed.exists_lit_of_resolvents {t : Task} (htask : t.WellFormed) {b : Bucket}
    (hwf : b.WellFormed) (hne : b.allClauses ≠ []) (hsub : ∀ c ∈ b.allClauses, c ∈ t.resolvents) :
    ∃ c ∈ t.bucket.allClauses, ∃ l ∈ c.lits, l.var = b.var := by
  obtain ⟨c, hc⟩ := List.exists_mem_of_ne_nil _ hne
  obtain ⟨p, hp⟩ := Bucket.mem_allClauses.1 hc
  have hl := Order.pivot_mem (hwf.pivot_of_mem hp)
  rcases mem_of_mem_resolvents (htask.bucket.pivotsOn .positive) htask.pivotsOn_negatives
    (hsub c hc) hl with ⟨d, hd, hl⟩ | ⟨d, hd, hl⟩
  · exact ⟨d, Bucket.mem_allClauses.2 ⟨_, hd⟩, _, hl, rfl⟩
  · exact ⟨d, Bucket.mem_allClauses.2 ⟨_, htask.negatives_mem d hd⟩, _, hl, rfl⟩

/-- A report stays right when the row grows. -/
theorem Reports.mono {t : Task} {row row' : Row} {result : Except Fault Outcome}
    (h : t.Reports row result) (hsize : row'.size = row.size)
    (hsub : ∀ c ∈ row.clauses, c ∈ row'.clauses) : t.Reports row' result := by
  cases result with
  | error f => simpa [Reports, Covered, hsize] using h
  | ok outcome =>
    obtain ⟨ending, stats⟩ := outcome
    cases ending with
    | finished =>
      obtain ⟨hrefutes, hresolvents, htautologies, hmem⟩ := h
      exact ⟨hrefutes, hresolvents, htautologies, fun c hc => hsub c (hmem c hc)⟩
    | unsat => exact h
    | cancelled => exact h

end Task

/-- How many clauses a task with this outcome has added to the row. -/
def Outcome.added (o : Outcome) : Int :=
  match o.ending with
  | .finished => o.stats.resolvents - o.stats.duplicates
  | _ => 0

/-- How many clauses a task with this result has added to the row, if it ended without a fault. -/
def resultAdded : Except Fault Outcome → Int
  | .ok o => o.added
  | .error _ => 0

/-! ## How far a worker is -/

namespace Worker

/-- A worker has gathered the resolvents of the positive clauses behind it, and what it still has to
merge is all that the row may lack of its resolvents. -/
def Sound (row : Row) (w : Worker) : Prop :=
  match w.phase with
  | .resolving positives h => ∃ done, w.task.bucket.clauses .positive = done ++ positives ∧
      ¬ Refutes w.task.bucket.order done w.task.negatives ∧
      h.Holds w.task.bucket.order w.task.bucket.var
        (resolvents w.task.bucket.order done w.task.negatives)
        (tautologies w.task.bucket.order done w.task.negatives)
  | .merging stats pending _ => ¬ w.task.Refutes ∧
      stats.resolvents = w.task.resolvents.length ∧ stats.tautologies = w.task.tautologies ∧
      (∀ b ∈ pending, b.WellFormed ∧ b.order = w.task.bucket.order ∧ b.allClauses ≠ [] ∧
        ∀ c ∈ b.allClauses, c ∈ w.task.resolvents) ∧
      ∀ c ∈ w.task.resolvents, c ∈ row.clauses ∨ ∃ b ∈ pending, c ∈ b.allClauses

/-- How many clauses the worker has added to the row. -/
def added (w : Worker) : Int :=
  match w.phase with
  | .resolving _ _ => 0
  | .merging stats pending dropped =>
    stats.resolvents - stats.duplicates - dropped - (pending.flatMap Bucket.allClauses).length

theorem Sound.mono {row row' : Row} {w : Worker} (h : w.Sound row)
    (hsub : ∀ c ∈ row.clauses, c ∈ row'.clauses) : w.Sound row' := by
  obtain ⟨ticket, task, phase⟩ := w
  cases phase with
  | resolving positives h' => exact h
  | merging stats pending dropped =>
    obtain ⟨hrefutes, hresolvents, htautologies, hpending, hmem⟩ := h
    exact ⟨hrefutes, hresolvents, htautologies, hpending, fun c hc => (hmem c hc).imp_left (hsub c)⟩

theorem sound_fresh (row : Row) (job : Nat × Task) : (fresh job).Sound row := by
  refine ⟨[], rfl, ?_, ?_⟩
  · rintro ⟨p, hp, -⟩
    cases hp
  · exact Task.Harvest.holds_empty _ _

/-- What one move of a worker achieves: the row grows by what the worker adds, and a worker that
ends reports rightly. -/
structure Achieves (w : Worker) (row row' : Row) (progress : Progress) : Prop where
  grows : row.Grows w.task.bucket.order w.task.resolvents row'
  onward : ∀ phase, progress = .onward phase → Sound row' { w with phase } ∧
    (row'.clauses.length : Int) + w.added = row.clauses.length + added { w with phase }
  ended : ∀ result, progress = .ended result → w.task.Reports row' result ∧
    ((∀ f, result ≠ .error f) →
      (row'.clauses.length : Int) + w.added = row.clauses.length + resultAdded result)

section

variable {w : Worker} {row : Row}

/-- A worker that has resolved everything turns to merging. -/
theorem Sound.turn {ticket : Nat} {task : Task} {h : Task.Harvest}
    (hsound : Sound row ⟨ticket, task, .resolving [] h⟩) (hrow : row.WellFormed task.bucket.order) :
    Achieves ⟨ticket, task, .resolving [] h⟩ row row
      (.onward (.merging h.stats h.toList 0)) := by
  obtain ⟨done, hdone, hrefutes, hholds⟩ := hsound
  rw [List.append_nil] at hdone
  subst hdone
  refine ⟨Row.Grows.refl hrow _, ?_, by simp⟩
  rintro phase ⟨⟩
  refine ⟨⟨hrefutes, hholds.resolvents_eq, hholds.tautologies_eq, fun b hb => ?_,
    fun c hc => ?_⟩, ?_⟩
  · obtain ⟨hwf, horder, -, hne⟩ := hholds.of_mem_toList hb
    exact ⟨hwf, horder, hne, fun c hc =>
      (hholds.mem_clauses c).1 (List.mem_flatMap.2 ⟨b, hb, hc⟩)⟩
  · obtain ⟨b, hb, hcb⟩ := List.mem_flatMap.1 ((hholds.mem_clauses c).2 hc)
    exact .inr ⟨b, hb, hcb⟩
  · have hlength := hholds.length_eq
    have hresolvents := hholds.resolvents_eq
    rw [Task.Harvest.clauses] at hlength
    simp only [added]
    omega

/-- A worker resolves one more positive clause. -/
theorem Sound.resolve {ticket : Nat} {task : Task} {positive : Clause} {positives : List Clause}
    {h : Task.Harvest} (hsound : Sound row ⟨ticket, task, .resolving (positive :: positives) h⟩)
    (htask : task.WellFormed) (hrow : row.WellFormed task.bucket.order) (choice : Nat)
    (journal : Journal) :
    ∃ progress,
      advance ⟨ticket, task, .resolving (positive :: positives) h⟩ choice false row journal =
        ((row, journal), progress) ∧
      Achieves ⟨ticket, task, .resolving (positive :: positives) h⟩ row row progress := by
  obtain ⟨done, hdone, hrefutes, hholds⟩ := hsound
  simp only at hdone hrefutes hholds
  obtain ⟨refuted, h', hrun, hrefuted, hnext⟩ := htask.resolveWith_next hdone hrefutes hholds
  have hadvance :
      advance ⟨ticket, task, .resolving (positive :: positives) h⟩ choice false row journal =
        ((row, journal), if refuted then .ended (.ok ⟨.unsat, h'.stats⟩)
          else .onward (.resolving positives h')) := by
    simp only [advance, hrun]
    cases refuted <;> rfl
  refine ⟨_, hadvance, Row.Grows.refl hrow _, ?_, ?_⟩
  · cases refuted with
    | true => simp
    | false =>
      rintro phase ⟨⟩
      refine ⟨⟨done ++ [positive], ?_, hnext rfl⟩, rfl⟩
      simp [hdone]
  · cases refuted with
    | true =>
      rintro result ⟨⟩
      exact ⟨hrefuted rfl, fun _ => rfl⟩
    | false => simp

/-- A worker that has merged everything ends its task. -/
theorem Sound.finish {ticket : Nat} {task : Task} {stats : TaskStats} {dropped : Nat}
    (hsound : Sound row ⟨ticket, task, .merging stats [] dropped⟩)
    (hrow : row.WellFormed task.bucket.order) :
    Achieves ⟨ticket, task, .merging stats [] dropped⟩ row row
      (.ended (.ok ⟨.finished, { stats with duplicates := stats.duplicates + dropped }⟩)) := by
  obtain ⟨hrefutes, hresolvents, htautologies, -, hmem⟩ := hsound
  refine ⟨Row.Grows.refl hrow _, by simp, ?_⟩
  rintro result ⟨⟩
  refine ⟨⟨hrefutes, hresolvents, htautologies, fun c hc => ?_⟩, fun _ => ?_⟩
  · rcases hmem c hc with hc | ⟨b, hb, -⟩
    · exact hc
    · cases hb
  · simp only [added, resultAdded, Outcome.added, List.flatMap_nil, List.length_nil]
    omega

/-- A bucket of resolvents has a place in every row that covers the task. -/
theorem index_lt_of_covered {task : Task} (htask : task.WellFormed) {b : Bucket}
    (hwf : b.WellFormed) (hne : b.allClauses ≠ []) (hsub : ∀ c ∈ b.allClauses, c ∈ task.resolvents)
    (hcovered : task.Covered row) : b.var.index < row.size := by
  obtain ⟨c, hc, l, hl, hvar⟩ := htask.exists_lit_of_resolvents hwf hne hsub
  rw [← hvar]
  exact hcovered c hc l hl

/-- A worker merges one more bucket into the row, any of those that it has left. -/
theorem Sound.merge {ticket : Nat} {task : Task} {stats : TaskStats} {pending rest : List Bucket}
    {bucket : Bucket} {dropped choice : Nat}
    (hsound : Sound row ⟨ticket, task, .merging stats pending dropped⟩)
    (hpick : task.pick choice pending = some (bucket, rest)) (htask : task.WellFormed)
    (hrow : row.WellFormed task.bucket.order) (journal : Journal) :
    ∃ row' journal' progress,
      advance ⟨ticket, task, .merging stats pending dropped⟩ choice false row journal =
        ((row', journal'), progress) ∧
      Achieves ⟨ticket, task, .merging stats pending dropped⟩ row row' progress := by
  obtain ⟨hrefutes, hresolvents, htautologies, hpending, hmem⟩ := hsound
  have hperm := Task.perm_of_pick hpick
  have hlength := (hperm.flatMap_right Bucket.allClauses).length_eq
  obtain ⟨hwf, horder, hne, hsub⟩ := hpending bucket (hperm.mem_iff.2 List.mem_cons_self)
  simp only at hwf horder hne hsub hmem
  by_cases hlt : bucket.var.index < row.size
  · obtain ⟨target, hget⟩ := Row.exists_get_of_lt hlt
    obtain ⟨row', more, hunite, hwf', hsize, hmem', hcount⟩ := hrow.unite hwf horder hlt
    let event := Event.merging (bucket.size .positive + bucket.size .negative) bucket.var
      (target.duplicateCount bucket)
    refine ⟨row', journal.push event, .onward (.merging stats rest (dropped + more)), ?_,
      ⟨hwf', hsize, ?_, ?_⟩, ?_, by simp⟩
    · simp only [advance, hpick, Task.Merge.step, hget, hunite]
      rfl
    · exact fun c hc => (hmem' c).2 (.inl hc)
    · exact fun c hc => ((hmem' c).1 hc).imp_right (hsub c)
    · rintro phase ⟨⟩
      refine ⟨⟨hrefutes, hresolvents, htautologies,
        fun b hb => hpending b (hperm.mem_iff.2 (List.mem_cons_of_mem _ hb)), fun c hc => ?_⟩, ?_⟩
      · rw [hmem']
        rcases hmem c hc with hold | ⟨b, hb, hcb⟩
        · exact .inl (.inl hold)
        · rcases List.mem_cons.1 (hperm.mem_iff.1 hb) with rfl | hb
          · exact .inl (.inr hcb)
          · exact .inr ⟨b, hb, hcb⟩
      · simp only [List.flatMap_cons, List.length_append] at hlength
        simp only [added, hlength]
        omega
  · have hget : row.get bucket.var = .error .noSuchBucket := by
      rw [Row.get, Array.getElem?_eq_none_iff.2 (Nat.le_of_not_lt hlt)]
    refine ⟨row, journal, .ended (.error .noSuchBucket), ?_, Row.Grows.refl hrow _, by simp, ?_⟩
    · simp only [advance, hpick, Task.Merge.step, hget]
    · rintro result ⟨⟩
      refine ⟨fun hcovered => hlt (index_lt_of_covered htask hwf hne hsub hcovered), fun hf => ?_⟩
      exact absurd rfl (hf _)

/-- Whatever a worker does next, it achieves what it should. -/
theorem Sound.advance (hsound : w.Sound row) (htask : w.task.WellFormed)
    (hrow : row.WellFormed w.task.bucket.order) (choice : Nat) (journal : Journal) :
    ∃ row' journal' progress, w.advance choice false row journal = ((row', journal'), progress) ∧
      w.Achieves row row' progress := by
  obtain ⟨ticket, task, phase⟩ := w
  cases phase with
  | resolving positives h =>
    cases positives with
    | nil => exact ⟨row, journal, _, rfl, hsound.turn hrow⟩
    | cons positive positives =>
      obtain ⟨progress, hadvance, hachieves⟩ := hsound.resolve htask hrow choice journal
      exact ⟨row, journal, progress, hadvance, hachieves⟩
  | merging stats pending dropped =>
    cases hpick : task.pick choice pending with
    | none =>
      obtain rfl := Task.pick_eq_none_iff.1 hpick
      exact ⟨row, journal, _, rfl, hsound.finish hrow⟩
    | some taken => exact hsound.merge hpick htask hrow journal

end

end Worker

end BucketElimination
