import BucketElimination.Elimination.Pool
import Mathlib.Data.List.Nodup
set_option autoImplicit false

/-!
# What happens to the jobs of a pool

Jobs are submitted, begun, completed and received in any interleaving, and the flag may be raised at
any moment.  A ledger records what was seen of this: the jobs that were submitted, the jobs that
workers began with, the results with which jobs ended and the results that were handed out, each in
the order of events.  Pool and ledger always match.  The workers begin with the jobs in the order of
submission, every job that was begun is under way or has ended once, and the results are handed out
in the order in which the jobs ended.  So each job is queued, run, finished or received, and only
one of these.

A fault is a result like any other.  The worker whose job ended with one is as free as after a
value, and if a job had ended otherwise, only its own result would be another one.
-/

namespace BucketElimination.Pool

variable {J R : Type}

/-! ## Runs -/

/-- What can happen to a pool. -/
inductive Happening (J R : Type) where
  | submit (job : J)
  /-- A free worker begins with the oldest job. -/
  | start
  /-- The job with a ticket ends, by a value or by a fault. -/
  | complete (ticket : Nat) (result : Except Fault R)
  | receive
  | cancel

/-- What was seen of a pool. -/
structure Ledger (J R : Type) where
  /-- The submitted jobs; the ticket of a job is its position. -/
  submitted : List J
  /-- The jobs that workers began with. -/
  begun : List (Nat × J)
  /-- The tickets of the jobs that ended, with their results. -/
  ended : List (Nat × Except Fault R)
  /-- The results that were handed out. -/
  handed : List (Except Fault R)

/-- Nothing was seen. -/
def Ledger.empty : Ledger J R := ⟨[], [], [], []⟩

/-- Pool and ledger after something happened, if it can happen. -/
def move? : Happening J R → Pool J R × Ledger J R → Option (Pool J R × Ledger J R)
  | .submit job, (p, l) => some (p.submit job, { l with submitted := l.submitted ++ [job] })
  | .start, (p, l) =>
    match p.begin? with
    | none => none
    | some (job, p) => some (p, { l with begun := l.begun ++ [job] })
  | .complete ticket result, (p, l) =>
    if ticket ∈ p.running.map Prod.fst then
      some (p.complete ticket result, { l with ended := l.ended ++ [(ticket, result)] })
    else none
  | .receive, (p, l) =>
    match p.receive? with
    | none => none
    | some (result, p) => some (p, { l with handed := l.handed ++ [result] })
  | .cancel, (p, l) => some (p.cancel, l)

/-- Pool and ledger after one thing happened after the other, if each can happen in its turn. -/
def follow? : List (Happening J R) → Pool J R × Ledger J R → Option (Pool J R × Ledger J R)
  | [], s => some s
  | happening :: happenings, s =>
    match move? happening s with
    | none => none
    | some s => follow? happenings s

/-- What each kind of happening needs and does. -/
theorem move?_cases {happening : Happening J R} {p p' : Pool J R} {l l' : Ledger J R}
    (h : move? happening (p, l) = some (p', l')) :
    (∃ job, happening = .submit job ∧ p' = p.submit job ∧
      l' = { l with submitted := l.submitted ++ [job] }) ∨
    (∃ job queued, happening = .start ∧ p.queued = job :: queued ∧ p.running.length < p.size ∧
      p' = { p with queued, running := p.running ++ [job] } ∧
      l' = { l with begun := l.begun ++ [job] }) ∨
    (∃ before job after result, happening = .complete job.1 result ∧
      p.running = before ++ job :: after ∧ p' = p.complete job.1 result ∧
      l' = { l with ended := l.ended ++ [(job.1, result)] }) ∨
    (∃ ticket result finished, happening = .receive ∧ p.finished = (ticket, result) :: finished ∧
      p' = { p with finished } ∧ l' = { l with handed := l.handed ++ [result] }) ∨
    (happening = .cancel ∧ p' = p.cancel ∧ l' = l) := by
  cases happening with
  | submit job =>
    cases h
    exact .inl ⟨job, rfl, rfl, rfl⟩
  | start =>
    simp only [move?, begin?] at h
    rcases hqueued : p.queued with _ | ⟨job, queued⟩
    · rw [hqueued] at h
      cases h
    · rw [hqueued] at h
      by_cases hfree : p.running.length < p.size
      · simp only [if_pos hfree] at h
        cases h
        exact .inr (.inl ⟨job, queued, rfl, rfl, hfree, rfl, rfl⟩)
      · simp only [if_neg hfree] at h
        cases h
  | complete ticket result =>
    by_cases hrunning : ticket ∈ p.running.map Prod.fst
    · simp only [move?, if_pos hrunning] at h
      cases h
      obtain ⟨job, hjob, rfl⟩ := List.mem_map.1 hrunning
      obtain ⟨before, after, hsplit⟩ := List.append_of_mem hjob
      exact .inr (.inr (.inl ⟨before, job, after, result, rfl, hsplit, rfl, rfl⟩))
    · simp only [move?, if_neg hrunning] at h
      cases h
  | receive =>
    simp only [move?, receive?] at h
    rcases hfinished : p.finished with _ | ⟨⟨ticket, result⟩, finished⟩
    · rw [hfinished] at h
      cases h
    · rw [hfinished] at h
      cases h
      exact .inr (.inr (.inr (.inl ⟨ticket, result, finished, rfl, rfl, rfl, rfl⟩)))
  | cancel =>
    cases h
    exact .inr (.inr (.inr (.inr ⟨rfl, rfl, rfl⟩)))

/-! ## Results amended -/

/-- An ended job with the result that it has if the job with `ticket` ends with `result`. -/
def amendEntry (ticket : Nat) (result : Except Fault R) (entry : Nat × Except Fault R) :
    Nat × Except Fault R :=
  (entry.1, if entry.1 = ticket then result else entry.2)

/-- The same happening, but the job with `ticket` ends with `result`. -/
def Happening.amend (ticket : Nat) (result : Except Fault R) : Happening J R → Happening J R
  | .complete ended posted => .complete ended (amendEntry ticket result (ended, posted)).2
  | happening => happening

/-- The same pool, but the job with `ticket` ended with `result` if it ended. -/
def amend (ticket : Nat) (result : Except Fault R) (p : Pool J R) : Pool J R :=
  { p with finished := p.finished.map (amendEntry ticket result) }

/-- The same ledger with `received` handed out, but the job with `ticket` ended with `result` if it
ended. -/
def Ledger.amend (ticket : Nat) (result : Except Fault R) (received : List (Nat × Except Fault R))
    (l : Ledger J R) : Ledger J R :=
  { l with
    ended := l.ended.map (amendEntry ticket result)
    handed := (received.map (amendEntry ticket result)).map Prod.snd }

/-! ## Pool and ledger match -/

/-- The pool of `size` workers is as the ledger says, and `received` are the jobs whose results were
handed out. -/
structure Matches (size : Nat) (received : List (Nat × Except Fault R)) (p : Pool J R)
    (l : Ledger J R) : Prop where
  size_eq : p.size = size
  submitted_eq : p.submitted = l.submitted.length
  /-- Jobs are begun in the order of submission. -/
  begun_eq : l.begun ++ p.queued = l.submitted.mapIdx Prod.mk
  running_subset : ∀ job ∈ p.running, job ∈ l.begun
  /-- What was begun is under way or has ended. -/
  running_perm : (p.running.map Prod.fst ++ l.ended.map Prod.fst).Perm (l.begun.map Prod.fst)
  running_le : p.running.length ≤ size
  ended_eq : l.ended = received ++ p.finished
  handed_eq : l.handed = received.map Prod.snd

section

variable {size : Nat} {received : List (Nat × Except Fault R)} {p : Pool J R} {l : Ledger J R}

theorem matches_start (h : start size = .ok p) : Matches size [] p .empty := by
  unfold start at h
  split at h
  · cases h
  · cases h
    exact ⟨rfl, rfl, rfl, by simp, List.Perm.nil, Nat.zero_le size, rfl, rfl⟩

/-- The tickets count the jobs in the order of submission. -/
theorem Matches.tickets_eq (h : Matches size received p l) :
    l.begun.map Prod.fst ++ p.queued.map Prod.fst = List.range l.submitted.length := by
  rw [← List.map_append, h.begun_eq]
  refine List.ext_getElem (by simp) fun i _ _ => ?_
  simp only [List.getElem_map, List.getElem_mapIdx, List.getElem_range]

theorem Matches.running_nodup (h : Matches size received p l) :
    (p.running.map Prod.fst).Nodup := by
  have hbegun : (l.begun.map Prod.fst).Nodup :=
    List.Nodup.of_append_left (h.tickets_eq ▸ List.nodup_range)
  exact List.Nodup.of_append_left (h.running_perm.nodup_iff.2 hbegun)

/-- Every job is in one place. -/
theorem Matches.places (h : Matches size received p l) :
    (p.queued.map Prod.fst ++ p.running.map Prod.fst ++ p.finished.map Prod.fst ++
      received.map Prod.fst).Perm (List.range l.submitted.length) := by
  refine List.perm_iff_count.2 fun ticket => ?_
  have hbegun := h.running_perm.count_eq ticket
  simp only [h.ended_eq, ← h.tickets_eq, List.map_append, List.count_append] at hbegun ⊢
  omega

/-- A worker that began with a job has it under way or has ended it. -/
theorem Matches.length_eq (h : Matches size received p l) :
    p.running.length + l.ended.length = l.begun.length := by
  simpa only [List.length_append, List.length_map] using h.running_perm.length_eq

/-- A pool hands nothing but the submitted jobs to its workers. -/
theorem Matches.job_eq (h : Matches size received p l) {job : Nat × J}
    (hjob : job ∈ p.queued ++ p.running) : l.submitted[job.1]? = some job.2 := by
  have hmem : job ∈ l.submitted.mapIdx Prod.mk := by
    rw [← h.begun_eq]
    rcases List.mem_append.1 hjob with hqueued | hrunning
    · exact List.mem_append_right _ hqueued
    · exact List.mem_append_left _ (h.running_subset job hrunning)
  obtain ⟨i, hi, rfl⟩ := List.mem_mapIdx.1 hmem
  exact List.getElem?_eq_getElem hi

/-! ## What one event preserves -/

theorem Matches.submit (h : Matches size received p l) (job : J) :
    Matches size received (p.submit job) { l with submitted := l.submitted ++ [job] } := by
  refine ⟨h.size_eq, ?_, ?_, h.running_subset, h.running_perm, h.running_le, h.ended_eq,
    h.handed_eq⟩
  · simp only [Pool.submit, h.submitted_eq, List.length_append, List.length_singleton]
  · simp only [Pool.submit]
    rw [← List.append_assoc, h.begun_eq, h.submitted_eq, List.mapIdx_concat]

theorem Matches.begin (h : Matches size received p l) {job : Nat × J} {queued : List (Nat × J)}
    (hqueued : p.queued = job :: queued) (hfree : p.running.length < p.size) :
    Matches size received { p with queued, running := p.running ++ [job] }
      { l with begun := l.begun ++ [job] } := by
  refine ⟨h.size_eq, h.submitted_eq, ?_, fun other hother => ?_, ?_, ?_, h.ended_eq, h.handed_eq⟩
  · rw [List.append_assoc, List.singleton_append, ← hqueued, h.begun_eq]
  · rcases List.mem_append.1 hother with hother | hother
    · exact List.mem_append_left _ (h.running_subset other hother)
    · exact List.mem_append_right _ hother
  · refine List.perm_iff_count.2 fun ticket => ?_
    have hcount := h.running_perm.count_eq ticket
    simp only [List.map_append, List.count_append] at hcount ⊢
    omega
  · have hsize := h.size_eq
    simp only [List.length_append, List.length_singleton]
    omega

/-- Tickets are unique, so that only the job that ended leaves its worker. -/
theorem Matches.running_complete (h : Matches size received p l) {before after : List (Nat × J)}
    {job : Nat × J} (hrunning : p.running = before ++ job :: after)
    (result : Except Fault R) : (p.complete job.1 result).running = before ++ after := by
  have hnodup := h.running_nodup
  rw [hrunning, List.map_append, List.map_cons, List.nodup_middle, List.nodup_cons,
    ← List.map_append] at hnodup
  have hothers : ∀ other ∈ before ++ after, (other.1 != job.1) = true := by
    intro other hother
    refine bne_iff_ne.2 fun hticket => hnodup.1 ?_
    exact hticket ▸ List.mem_map_of_mem hother
  simp only [complete, hrunning, List.filter_append, List.filter_cons, bne_self_eq_false,
    Bool.false_eq_true, if_false]
  rw [← List.filter_append, List.filter_eq_self.2 hothers]

theorem Matches.complete (h : Matches size received p l) {before after : List (Nat × J)}
    {job : Nat × J} (hrunning : p.running = before ++ job :: after) (result : Except Fault R) :
    Matches size received (p.complete job.1 result)
      { l with ended := l.ended ++ [(job.1, result)] } := by
  have hleft := h.running_complete hrunning result
  refine ⟨h.size_eq, h.submitted_eq, h.begun_eq, fun other hother => ?_, ?_, ?_, ?_, h.handed_eq⟩
  · refine h.running_subset other ?_
    rw [hrunning]
    rw [hleft] at hother
    rcases List.mem_append.1 hother with hother | hother
    · exact List.mem_append_left _ hother
    · exact List.mem_append_right _ (List.mem_cons_of_mem _ hother)
  · refine List.perm_iff_count.2 fun ticket => ?_
    have hcount := h.running_perm.count_eq ticket
    simp only [hleft, hrunning, List.map_append, List.map_cons, List.map_nil, List.count_append,
      List.count_cons, List.count_nil] at hcount ⊢
    omega
  · have hle := h.running_le
    simp only [hleft, hrunning, List.length_append, List.length_cons] at hle ⊢
    omega
  · simp only [Pool.complete, h.ended_eq, List.append_assoc]

theorem Matches.receive (h : Matches size received p l) {ticket : Nat} {result : Except Fault R}
    {finished : List (Nat × Except Fault R)}
    (hfinished : p.finished = (ticket, result) :: finished) :
    Matches size (received ++ [(ticket, result)]) { p with finished }
      { l with handed := l.handed ++ [result] } := by
  refine ⟨h.size_eq, h.submitted_eq, h.begun_eq, h.running_subset, h.running_perm, h.running_le,
    ?_, ?_⟩
  · rw [List.append_assoc, List.singleton_append, ← hfinished, h.ended_eq]
  · rw [h.handed_eq, List.map_append, List.map_singleton]

/-- Raising the flag moves no job. -/
theorem Matches.cancel (h : Matches size received p l) : Matches size received p.cancel l :=
  ⟨h.size_eq, h.submitted_eq, h.begun_eq, h.running_subset, h.running_perm, h.running_le,
    h.ended_eq, h.handed_eq⟩

/-- One event keeps pool and ledger in step, and amending a result commutes with it. -/
theorem Matches.move (h : Matches size received p l) {happening : Happening J R} {p' : Pool J R}
    {l' : Ledger J R} (hmove : move? happening (p, l) = some (p', l')) :
    ∃ received', Matches size received' p' l' ∧ ∀ ticket result,
      move? (happening.amend ticket result)
        (p.amend ticket result, l.amend ticket result received) =
        some (p'.amend ticket result, l'.amend ticket result received') := by
  rcases move?_cases hmove with ⟨job, rfl, rfl, rfl⟩ |
    ⟨job, queued, rfl, hqueued, hfree, rfl, rfl⟩ |
    ⟨before, job, after, posted, rfl, hrunning, rfl, rfl⟩ |
    ⟨ended, posted, finished, rfl, hfinished, rfl, rfl⟩ | ⟨rfl, rfl, rfl⟩
  · exact ⟨received, h.submit job, fun ticket result => rfl⟩
  · refine ⟨received, h.begin hqueued hfree, fun ticket result => ?_⟩
    simp only [Happening.amend, move?, begin?, Pool.amend, hqueued, if_pos hfree, Ledger.amend]
  · refine ⟨received, h.complete hrunning posted, fun ticket result => ?_⟩
    have hmem : job.1 ∈ p.running.map Prod.fst := by
      simp only [hrunning, List.map_append, List.map_cons, List.mem_append, List.mem_cons,
        true_or, or_true]
    simp only [Happening.amend, move?, Pool.amend, if_pos hmem, Ledger.amend, Pool.complete,
      List.map_append, List.map_singleton, amendEntry]
  · refine ⟨received ++ [(ended, posted)], h.receive hfinished, fun ticket result => ?_⟩
    simp only [Happening.amend, move?, receive?, Pool.amend, hfinished, List.map_cons,
      Ledger.amend, List.map_append, List.map_nil]
  · exact ⟨received, h.cancel, fun ticket result => rfl⟩

/-- A whole run keeps pool and ledger in step, and amending a result commutes with it. -/
theorem Matches.follow {happenings : List (Happening J R)} {p' : Pool J R} {l' : Ledger J R}
    (h : Matches size received p l) (hrun : follow? happenings (p, l) = some (p', l')) :
    ∃ received', Matches size received' p' l' ∧ ∀ ticket result,
      follow? (happenings.map (Happening.amend ticket result))
        (p.amend ticket result, l.amend ticket result received) =
        some (p'.amend ticket result, l'.amend ticket result received') := by
  induction happenings generalizing received p l with
  | nil =>
    cases hrun
    exact ⟨received, h, fun ticket result => rfl⟩
  | cons happening happenings ih =>
    rw [follow?] at hrun
    rcases hmove : move? happening (p, l) with _ | ⟨p₁, l₁⟩
    · rw [hmove] at hrun
      cases hrun
    · rw [hmove] at hrun
      obtain ⟨received₁, h₁, hamend₁⟩ := h.move hmove
      obtain ⟨received', h', hamend⟩ := ih h₁ hrun
      refine ⟨received', h', fun ticket result => ?_⟩
      simp only [List.map_cons, follow?, hamend₁, hamend]

/-! ## Every run -/

/-- A worker is free to begin if fewer jobs than there are workers were begun and have not ended. -/
theorem Matches.begins (h : Matches size received p l) (hqueued : p.queued ≠ [])
    (hfree : l.begun.length < l.ended.length + size) : p.begin?.isSome := by
  obtain ⟨job, queued, hcons⟩ := List.exists_cons_of_ne_nil hqueued
  have hlength := h.length_eq
  have hsize := h.size_eq
  have hidle : p.running.length < p.size := by omega
  simp only [begin?, hcons, if_pos hidle, Option.isSome_some]

/-- Something can happen to a job whose result was not handed out. -/
theorem Matches.progress (h : Matches size received p l) (hsize : 0 < size)
    (hleft : l.handed.length < l.submitted.length) :
    p.begin?.isSome ∨ p.running ≠ [] ∨ p.receive?.isSome := by
  by_cases hrunning : p.running = []
  · have hplaces := h.places.length_eq
    simp only [hrunning, List.length_append, List.length_map, List.map_nil, List.length_nil,
      List.length_range] at hplaces
    rw [h.handed_eq, List.length_map] at hleft
    by_cases hqueued : p.queued = []
    · -- Nothing waits and nothing is under way, so a result is there.
      right; right
      rcases hfinished : p.finished with _ | ⟨entry, finished⟩
      · simp only [hqueued, hfinished, List.length_nil] at hplaces
        omega
      · simp only [receive?, hfinished, Option.isSome_some]
    · have hlength := h.length_eq
      simp only [hrunning, List.length_nil] at hlength
      exact .inl (h.begins hqueued (by omega))
  · exact .inr (.inl hrunning)

end

/-- A pool of one worker or more loses and doubles no job, whatever happens to it in whatever order:
each is in one place, is begun at most once, ends at most once and has its own result handed out at
most once, in the order in which the jobs end. -/
theorem every_job_accounted (J R : Type) (size : Nat) (hsize : 1 ≤ size) :
    ∃ p₀ : Pool J R, start size = .ok p₀ ∧
      ∀ (happenings : List (Happening J R)) (p : Pool J R) (l : Ledger J R),
        follow? happenings (p₀, .empty) = some (p, l) →
        ∃ received : List (Nat × Except Fault R),
          -- Each job is queued, under way, finished or received, and only one of these.
          (p.queued.map Prod.fst ++ p.running.map Prod.fst ++ p.finished.map Prod.fst ++
            received.map Prod.fst).Perm (List.range l.submitted.length) ∧
          (∀ job ∈ p.queued ++ p.running, l.submitted[job.1]? = some job.2) ∧
          -- Jobs are begun once, in the order of submission, and then under way until they end.
          l.begun ++ p.queued = l.submitted.mapIdx Prod.mk ∧
          (p.running.map Prod.fst ++ l.ended.map Prod.fst).Perm (l.begun.map Prod.fst) ∧
          -- The results are handed out in the order in which the jobs ended.
          l.ended = received ++ p.finished ∧
          l.handed = received.map Prod.snd ∧
          -- No worker is lost, whatever the result of its job.
          p.size = size ∧
          p.running.length ≤ size ∧
          (p.queued ≠ [] → l.begun.length < l.ended.length + size → p.begin?.isSome) ∧
          (l.handed.length < l.submitted.length →
            p.begin?.isSome ∨ p.running ≠ [] ∨ p.receive?.isSome) ∧
          -- Had one job ended otherwise, by a fault say, nothing but its own result would differ.
          ∀ ticket result,
            follow? (happenings.map (Happening.amend ticket result)) (p₀, .empty) =
              some (p.amend ticket result, l.amend ticket result received) := by
  have hstart : start size = .ok (⟨size, false, 0, [], [], []⟩ : Pool J R) :=
    if_neg (Nat.ne_of_gt hsize)
  refine ⟨_, hstart, fun happenings p l hrun => ?_⟩
  obtain ⟨received, h, hamend⟩ := (matches_start hstart).follow hrun
  exact ⟨received, h.places, fun job hjob => h.job_eq hjob, h.begun_eq, h.running_perm, h.ended_eq,
    h.handed_eq, h.size_eq, h.running_le, h.begins, h.progress hsize, hamend⟩

/-- Two workers and three jobs: the second job gives up, its worker takes the third one, and both
results are received while the first job is still under way. -/
def oneGivesUp : List (Happening String Nat) :=
  [.submit "one", .submit "two", .submit "three", .start, .start,
    .complete 1 (.error (.jobFailed (some "two gave up"))), .start, .complete 2 (.ok 3), .cancel,
    .receive, .receive]

theorem every_job_accounted_oneGivesUp :
    ∃ (p₀ p : Pool String Nat) (l : Ledger String Nat),
      start 2 = .ok p₀ ∧ follow? oneGivesUp (p₀, .empty) = some (p, l) ∧
      p.running = [(0, "one")] ∧
      l.handed = [.error (.jobFailed (some "two gave up")), .ok 3] ∧
      ∃ received : List (Nat × Except Fault Nat),
        l.ended = received ++ p.finished ∧ l.handed = received.map Prod.snd ∧
        (p.queued.map Prod.fst ++ p.running.map Prod.fst ++ p.finished.map Prod.fst ++
          received.map Prod.fst).Perm (List.range l.submitted.length) := by
  obtain ⟨p₀, hstart, hruns⟩ := every_job_accounted String Nat 2 (by decide)
  cases hstart
  obtain ⟨received, hplaces, -, -, -, hended, hhanded, -⟩ := hruns oneGivesUp _ _ rfl
  exact ⟨_, _, _, rfl, rfl, rfl, rfl, received, hended, hhanded, hplaces⟩

end BucketElimination.Pool
