import BucketElimination.Proofs.DeliveredFormulas
import BucketElimination.Proofs.StreamedLoading
set_option autoImplicit false

/-!
# The books of the solver

Until it solves, a solver keeps its books straight, whatever was asked of it and whether or not it
refused: it has one bucket per variable, made with the settings that are in force, the buckets hold
the canonical forms of the clauses that were loaded before the first one without literals, each form
once, and every one of these clauses was counted as filed, as a duplicate or as a tautology.

The clauses loaded so far are the index of the invariant, `Ledger`, and each operation is shown to
extend the index by the clauses that it loads.
-/

namespace BucketElimination

/-! ## Capacities -/

/-- All chunks of the side have the capacity. -/
def Side.HasCapacity (capacity : Capacity) (s : Side) : Prop :=
  ∀ chunk ∈ s.allChunks, chunk.capacity = capacity

theorem Side.HasCapacity.push {capacity : Capacity} {s : Side} (h : s.HasCapacity capacity)
    (x : Clause) : (s.push x).HasCapacity capacity := by
  have hcurrent : s.current.capacity = capacity := h s.current (by simp [Side.allChunks])
  intro chunk hchunk
  cases hfull : s.current.isFull with
  | true =>
    rw [Side.push_of_isFull hfull] at hchunk
    simp only [Side.allChunks, Array.toList_push, List.mem_append, List.mem_singleton] at hchunk
    obtain (hold | rfl) | rfl := hchunk
    · exact h chunk (by simp [Side.allChunks, hold])
    · exact hcurrent
    · exact hcurrent
  | false =>
    rw [Side.push_of_not_isFull hfull] at hchunk
    simp only [Side.allChunks, List.mem_append, List.mem_singleton] at hchunk
    obtain hold | rfl := hchunk
    · exact h chunk (by simp [Side.allChunks, hold])
    · exact hcurrent

/-- All chunks of the bucket have the capacity. -/
def Bucket.HasCapacity (capacity : Capacity) (b : Bucket) : Prop :=
  ∀ p, (b.side p).HasCapacity capacity

theorem Bucket.hasCapacity_empty (v : Var) (order : Order) (capacity : Capacity) :
    (Bucket.empty v order capacity).HasCapacity capacity := by
  intro p chunk hchunk
  cases p <;>
  · obtain rfl := List.mem_singleton.1 hchunk
    rfl

theorem Bucket.HasCapacity.store {capacity : Capacity} {b : Bucket} (h : b.HasCapacity capacity)
    (c : Clause) (pivot : Lit) : (b.store c pivot).1.HasCapacity capacity := by
  cases hknown : b.index.contains c.lits with
  | true =>
    rw [Bucket.store_of_contains pivot hknown]
    exact h
  | false =>
    rw [Bucket.store_of_not_contains pivot hknown]
    intro p
    by_cases hp : p = pivot.polarity
    · subst hp
      rw [Bucket.side_setSide_self]
      exact (h _).push c
    · rw [Bucket.side_setSide_of_ne _ hp]
      have hp := h p
      cases p <;> exact hp

namespace Row

/-- All chunks of the row have the capacity. -/
def HasCapacity (capacity : Capacity) (r : Row) : Prop :=
  ∀ (i : Nat) (b : Bucket), r.buckets[i]? = some b → b.HasCapacity capacity

variable {order : Order} {capacity : Capacity} {r : Row}

theorem hasCapacity_empty (capacity : Capacity) : empty.HasCapacity capacity := by
  intro i b hb
  simp [empty] at hb

theorem HasCapacity.set (h : r.HasCapacity capacity) {b : Bucket} (hb : b.HasCapacity capacity)
    (v : Var) : (r.set v b).HasCapacity capacity := by
  intro i d hd
  simp only [Row.set, Array.getElem?_setIfInBounds] at hd
  split at hd
  · split at hd
    · cases hd
      exact hb
    · cases hd
  · exact h i d hd

theorem HasCapacity.extend (h : r.HasCapacity capacity) (order : Order) (n : Nat) :
    (r.extend order capacity n).HasCapacity capacity := by
  induction n generalizing r with
  | zero => exact h
  | succ n ih =>
    unfold Row.extend
    split
    · exact h
    · apply ih
      intro i b hb
      simp only [Array.getElem?_push] at hb
      split at hb
      · cases hb
        exact Bucket.hasCapacity_empty _ _ _
      · exact h i b hb

end Row

/-! ## What becomes of one clause -/

/-- The clause is the canonical form of the list: it has the same literals.  A list with a literal
and its complement has no canonical form, any other list has one. -/
def Clause.FormOf (lits : List Lit) (c : Clause) : Prop := ∀ l, l ∈ c.lits ↔ l ∈ lits

/-- The list holds a literal and its complement. -/
def Tautological (lits : List Lit) : Prop := ∃ l ∈ lits, l.negate ∈ lits

instance (lits : List Lit) : Decidable (Tautological lits) :=
  inferInstanceAs (Decidable (∃ l ∈ lits, l.negate ∈ lits))

theorem Clause.FormOf.eq {lits : List Lit} {c d : Clause} (hc : c.FormOf lits)
    (hd : d.FormOf lits) : c = d :=
  Clause.ext_lits
    (eq_of_mem_iff_of_isCanonical c.canonical d.canonical fun l => (hc l).trans (hd l).symm)

theorem Clause.FormOf.not_tautological {lits : List Lit} {c : Clause} (hc : c.FormOf lits) :
    ¬ Tautological lits := by
  rintro ⟨l, hl, hn⟩
  exact negate_not_mem_of_isCanonical c.canonical ((hc l).2 hl) ((hc _).2 hn)

namespace Row

variable {order : Order} {r : Row}

/-- Filing says whether the clause was new, and a new clause is one more. -/
theorem WellFormed.file_counts (h : r.WellFormed order) {c : Clause} (hne : c.lits ≠ [])
    (hlt : ∀ l ∈ c.lits, l.var.index < r.size) :
    ∃ r', r.file order c = (r', .ok (decide (c ∉ r.clauses))) ∧
      r'.clauses.length = r.clauses.length + (if c ∈ r.clauses then 0 else 1) ∧
      ∀ capacity, r.HasCapacity capacity → r'.HasCapacity capacity := by
  obtain ⟨v, p, b, hpivot, hget⟩ := exists_get_of_pivot hne hlt order
  have hfile := h.file_eq hget hpivot
  have hmem := h.mem_clauses_iff_of_get hget hpivot
  obtain ⟨hwf, rfl, rfl⟩ := h.get hget
  obtain ⟨-, -, -, hnew, -⟩ := hwf.store hpivot
  have hlength := (hwf.allClauses_store hpivot).2
  have hset := length_clauses_set hget (b.store c ⟨b.var, p⟩).1
  refine ⟨r.set b.var (b.store c ⟨b.var, p⟩).1, ?_, ?_, ?_⟩
  · rw [hfile, hnew]
    simp only [hmem]
  · rw [hnew] at hlength
    simp only [hmem]
    by_cases hc : c ∈ b.clauses p
    · simp only [hc, not_true_eq_false, decide_false, Bool.false_eq_true, if_false, if_true]
        at hlength ⊢
      omega
    · simp only [hc, not_false_eq_true, decide_true, if_true, if_false] at hlength ⊢
      omega
  · intro capacity hcapacity
    exact hcapacity.set ((hcapacity _ _ (get_eq_ok_iff.1 hget)).store c _) _

/-- How a clause was booked, and what became of the row. -/
structure Books (lits : List Lit) (r r' : Row) (loaded : Loaded) : Prop where
  tautology_iff : loaded = .tautology ↔ Tautological lits
  empty_iff : loaded = .empty ↔ lits = []
  mem_iff : lits ≠ [] → ∀ c, c ∈ r'.clauses ↔ c ∈ r.clauses ∨ c.FormOf lits
  length_eq : r'.clauses.length = r.clauses.length + if loaded = .filed then 1 else 0
  hasCapacity : ∀ capacity, r.HasCapacity capacity → r'.HasCapacity capacity
  eq_of_empty : loaded = .empty → r' = r

/-- Loading a clause over variables of the row books it. -/
theorem WellFormed.load_books (h : r.WellFormed order) {lits : List Lit}
    (hlt : ∀ l ∈ lits, l.var.index < r.size) :
    ∃ r' loaded, r.load order lits = (r', .ok loaded) ∧ Books lits r r' loaded := by
  unfold Row.load
  cases hcanonical : canonicalize lits with
  | none =>
    have htautology : Tautological lits := canonicalize_eq_none_iff.1 hcanonical
    have hne : lits ≠ [] := by
      rintro rfl
      obtain ⟨l, hl, -⟩ := htautology
      cases hl
    refine ⟨r, .tautology, rfl, ⟨by simp [htautology], by simp [hne], fun _ c => ?_, by simp,
      fun _ => id, fun _ => rfl⟩⟩
    simp only [iff_self_or]
    exact fun hc => absurd htautology hc.not_tautological
  | some canonical =>
    obtain ⟨hc, hmem⟩ := canonicalize_eq_some hcanonical
    have hform : Clause.FormOf lits ⟨canonical, hc⟩ := hmem
    have hnot := hform.not_tautological
    cases canonical with
    | nil =>
      have hnil : lits = [] := List.eq_nil_iff_forall_not_mem.2 fun l hl => by cases (hmem l).2 hl
      exact ⟨r, .empty, rfl, ⟨by simp [hnot], by simp [hnil], fun hne => absurd hnil hne, by simp,
        fun _ => id, fun _ => rfl⟩⟩
    | cons l ls =>
      have hne : lits ≠ [] := List.ne_nil_of_mem ((hmem l).1 List.mem_cons_self)
      have hlt' : ∀ x ∈ l :: ls, x.var.index < r.size := fun x hx => hlt x ((hmem x).1 hx)
      obtain ⟨r', new, hfile, -, -, hclauses⟩ := h.file (c := ⟨l :: ls, hc⟩) (by simp) hlt'
      obtain ⟨r'', hfile', hlength, hcapacity⟩ :=
        h.file_counts (c := ⟨l :: ls, hc⟩) (by simp) hlt'
      rw [hfile] at hfile'
      cases hfile'
      have hforms : ∀ c, c ∈ r'.clauses ↔ c ∈ r.clauses ∨ c.FormOf lits := by
        intro c
        rw [hclauses]
        constructor
        · rintro (hold | rfl)
          · exact .inl hold
          · exact .inr hform
        · rintro (hold | hnew)
          · exact .inl hold
          · exact .inr (hnew.eq hform)
      have hof : Clause.ofLits (l :: ls) = .ok ⟨l :: ls, hc⟩ := Clause.ofLits_eq_ok_iff.2 rfl
      refine ⟨r', if (⟨l :: ls, hc⟩ : Clause) ∈ r.clauses then .duplicate else .filed, ?_, ?_⟩
      · simp only [hof, hfile]
        by_cases hold : (⟨l :: ls, hc⟩ : Clause) ∈ r.clauses <;> simp [hold]
      · by_cases hold : (⟨l :: ls, hc⟩ : Clause) ∈ r.clauses
        · simp only [hold, if_true] at hlength ⊢
          exact ⟨by simp [hnot], by simp [hne], fun _ => hforms, by simpa using hlength, hcapacity,
            by simp⟩
        · simp only [hold, if_false] at hlength ⊢
          exact ⟨by simp [hnot], by simp [hne], fun _ => hforms, by simpa using hlength, hcapacity,
            by simp⟩

end Row

/-! ## The books -/

namespace Solver

/-- The clauses before the first one without literals. -/
def beforeEmpty (clauses : List (List Lit)) : List (List Lit) := clauses.takeWhile (· ≠ [])

theorem beforeEmpty_append_of_not_mem {clauses : List (List Lit)} (h : [] ∉ clauses)
    (more : List (List Lit)) : beforeEmpty (clauses ++ more) = clauses ++ beforeEmpty more := by
  apply List.takeWhile_append_of_pos
  intro lits hlits
  simpa using ne_of_mem_of_not_mem hlits h

theorem beforeEmpty_of_not_mem {clauses : List (List Lit)} (h : [] ∉ clauses) :
    beforeEmpty clauses = clauses := by
  have happend := beforeEmpty_append_of_not_mem h []
  rwa [List.append_nil, show beforeEmpty [] = [] from rfl, List.append_nil] at happend

/-- Nothing counts after a clause without literals. -/
theorem beforeEmpty_append_of_mem {clauses : List (List Lit)} (h : [] ∈ clauses)
    (more : List (List Lit)) : beforeEmpty (clauses ++ more) = beforeEmpty clauses := by
  obtain ⟨before, after, rfl⟩ := List.append_of_mem h
  simp [beforeEmpty, List.takeWhile_append]

/-- The row stores the canonical forms of the clauses, and each of the clauses is counted. -/
structure Booked (clauses : List (List Lit)) (row : Row) (stats : Stats) : Prop where
  mem_iff : ∀ c, c ∈ row.clauses ↔ ∃ lits ∈ clauses, c.FormOf lits
  inputClauses_eq : stats.inputClauses = row.clauses.length
  tautologicalInputs_eq : stats.tautologicalInputs = clauses.countP (decide <| Tautological ·)
  total : stats.inputClauses + stats.duplicateInputs + stats.tautologicalInputs = clauses.length

/-- One more clause with literals is filed, a duplicate or a tautology. -/
theorem Booked.countLoaded {clauses : List (List Lit)} {s : Solver} {row : Row}
    {result : Row.Loaded} {lits : List Lit} (h : Booked clauses s.row s.stats)
    (hbooks : Row.Books lits s.row row result) (hne : lits ≠ []) :
    Booked (clauses ++ [lits]) row ({ s with row }.countLoaded result).stats := by
  have hmem : ∀ c, c ∈ row.clauses ↔ ∃ x ∈ clauses ++ [lits], c.FormOf x := by
    intro c
    rw [hbooks.mem_iff hne, h.mem_iff]
    simp only [List.mem_append, List.mem_singleton, or_and_right, exists_or, exists_eq_left]
  have htautology := hbooks.tautology_iff
  have hlength := hbooks.length_eq
  have hinput := h.inputClauses_eq
  have htautologies := h.tautologicalInputs_eq
  have htotal := h.total
  refine ⟨hmem, ?_, ?_, ?_⟩
  · cases result <;> simp [Solver.countLoaded, Solver.note] at hlength ⊢ <;> omega
  · rw [List.countP_append, List.countP_singleton, ← htautologies]
    simp only [decide_eq_true_eq, ← htautology]
    cases result <;> simp [Solver.countLoaded, Solver.note]
  · have hnot : result ≠ .empty := fun he => hne (hbooks.empty_iff.1 he)
    rw [List.length_append, List.length_singleton, ← htotal]
    cases result with
    | empty => exact absurd rfl hnot
    | filed | duplicate | tautology =>
      simp only [Solver.countLoaded]
      omega

/-- The solver is not solved, its settings are those of its buckets, and its books have the clauses
that were loaded, up to the first one without literals. -/
structure Ledger (loaded : List (List Lit)) (s : Solver) : Prop where
  unsolved : s.solved = false
  varCount_eq : s.varCount = s.row.size
  hasCapacity : s.row.HasCapacity s.config.chunkCapacity
  verdict_eq : s.verdict = if [] ∈ loaded then some .unsat else none
  booked : Booked (beforeEmpty loaded) s.row s.stats

theorem ledger_new : Ledger [] new where
  unsolved := rfl
  varCount_eq := rfl
  hasCapacity := Row.hasCapacity_empty _
  verdict_eq := rfl
  booked := by
    refine ⟨fun c => ⟨?_, ?_⟩, rfl, rfl, rfl⟩
    · intro hc
      cases hc
    · rintro ⟨lits, hlits, -⟩
      cases hlits

section

variable {loaded : List (List Lit)} {s : Solver}

/-- One more clause over variables with buckets. -/
theorem Ledger.loadClause (h : Ledger loaded s) (hwf : s.row.WellFormed s.config.order)
    {lits : List Lit} (hlt : ∀ l ∈ lits, l.var.index < s.row.size) :
    Ledger (loaded ++ [lits]) (s.loadClause lits).1 := by
  obtain ⟨hunsolved, hvars, hcapacity, hverdict, hbooked⟩ := h
  by_cases hempty : [] ∈ loaded
  · rw [if_pos hempty] at hverdict
    rw [Solver.loadClause, if_pos hverdict]
    refine ⟨hunsolved, hvars, hcapacity, ?_, ?_⟩
    · rw [hverdict, if_pos (List.mem_append_left _ hempty)]
    · rwa [beforeEmpty_append_of_mem hempty]
  · rw [if_neg hempty] at hverdict
    rw [beforeEmpty_of_not_mem hempty] at hbooked
    obtain ⟨row, result, hload, hbooks⟩ := hwf.load_books hlt
    have hsize := (hwf.fst_load lits).2
    rw [hload] at hsize
    rw [Solver.loadClause, if_neg (by rw [hverdict]; decide), hload]
    by_cases hnil : lits = []
    · subst hnil
      obtain rfl := hbooks.empty_iff.2 rfl
      obtain rfl := hbooks.eq_of_empty rfl
      refine ⟨hunsolved, hvars, hcapacity, ?_, ?_⟩
      · rw [if_pos (List.mem_append_right _ List.mem_cons_self)]
        rfl
      · rw [beforeEmpty_append_of_not_mem hempty, show beforeEmpty [[]] = [] from rfl,
          List.append_nil]
        exact hbooked
    · have hnot : [] ∉ loaded ++ [lits] := by simpa [hempty] using Ne.symm hnil
      have hbooked' := hbooked.countLoaded hbooks hnil
      cases result with
      | empty => exact absurd (hbooks.empty_iff.1 rfl) hnil
      | filed | duplicate | tautology =>
        refine ⟨hunsolved, hvars.trans hsize.symm, hbooks.hasCapacity _ hcapacity, ?_, ?_⟩
        · rw [if_neg hnot]
          exact hverdict
        · rw [beforeEmpty_of_not_mem hnot]
          exact hbooked'

theorem Ledger.loadClauses (h : Ledger loaded s) (hwf : s.row.WellFormed s.config.order)
    {clauses : List (List Lit)} (hlt : ∀ lits ∈ clauses, ∀ l ∈ lits, l.var.index < s.row.size) :
    Ledger (loaded ++ clauses) (loadClauses clauses s).1 := by
  induction clauses generalizing loaded s with
  | nil => rwa [List.append_nil]
  | cons lits clauses ih =>
    rw [List.forall_mem_cons] at hlt
    have h₁ := h.loadClause hwf hlt.1
    have hok := loadClause_ok hwf hlt.1
    obtain ⟨row, verdict, stats, journal, hs₁, hwf₁, hsize⟩ := loads_loadClause hwf lits
    rw [List.append_cons, Solver.loadClauses]
    rcases hrun : s.loadClause lits with ⟨s₁, result⟩
    rw [hrun] at h₁ hok hs₁
    cases hok
    simp only at hs₁
    subst hs₁
    apply ih h₁ hwf₁
    intro x hx l hl
    exact Nat.lt_of_lt_of_eq (hlt.2 x hx l hl) hsize.symm

/-- Growing makes buckets with the settings in force. -/
theorem Ledger.growTo (h : Ledger loaded s) (hwf : s.row.WellFormed s.config.order) (count : Nat) :
    Ledger loaded ({ s with loading := true }.growTo count) := by
  obtain ⟨-, hclauses, -, -⟩ := hwf.extend s.config.chunkCapacity (count - s.row.size)
  obtain ⟨hmem, hinput, htautologies, htotal⟩ := h.booked
  refine ⟨h.unsolved, rfl, h.hasCapacity.extend _ _, h.verdict_eq, ⟨?_, ?_, htautologies, htotal⟩⟩
  · intro c
    rw [← hmem, Solver.growTo, hclauses]
  · rw [Solver.growTo, hclauses]
    exact hinput

/-- The clauses that are loaded if there are not too many variables. -/
def fitting (count : Nat) (clauses : List (List Lit)) : List (List Lit) :=
  if count ≤ Var.maxNumber then clauses else []

theorem Ledger.load (h : Ledger loaded s) (htidy : s.Tidy) {count : Nat}
    {clauses : List (List Lit)} (hle : ∀ lits ∈ clauses, ∀ l ∈ lits, l.var.number ≤ count) :
    Ledger (loaded ++ fitting count clauses) (s.load count clauses).1 := by
  by_cases hmax : count ≤ Var.maxNumber
  · have hgrown := (htidy.wellFormed.extend s.config.chunkCapacity (count - s.row.size)).1
    have hlarge := htidy.wellFormed.le_size_extend s.config.chunkCapacity hmax
    rw [fitting, if_pos hmax, load_of_unsolved h.unsolved hmax]
    apply (h.growTo htidy.wellFormed count).loadClauses hgrown
    intro lits hlits l hl
    exact Nat.lt_of_lt_of_le (Var.index_lt_iff.2 (hle lits hlits l hl)) hlarge
  · rw [fitting, if_neg hmax, List.append_nil, Solver.load, if_neg (by rw [h.unsolved]; decide)]
    simp only [if_pos (Nat.lt_of_not_le hmax)]
    exact ⟨h.unsolved, h.varCount_eq, h.hasCapacity, h.verdict_eq, h.booked⟩

/-- While the settings can change there is no bucket. -/
theorem Ledger.configure (h : Ledger loaded s) (htidy : s.Tidy) (u : Update) :
    Ledger loaded (s.configure u).1 := by
  unfold Solver.configure
  split
  · exact h
  · rename_i hloading
    have hrow := htidy.row_eq (by simpa using hloading)
    split
    · exact h
    · refine ⟨h.unsolved, h.varCount_eq, ?_, h.verdict_eq, h.booked⟩
      show s.row.HasCapacity _
      rw [hrow]
      exact Row.hasCapacity_empty _

/-- A source passes in the formulas that come out of it, even if it fails. -/
theorem Ledger.addDimacs (h : Ledger loaded s) (htidy : s.Tidy) (source : Dimacs.Source) :
    Ledger (loaded ++ (Dimacs.readParts source).1.flatMap Formula.clauses)
      (s.addDimacs source).1 := by
  have haccepting : Dimacs.Accepting (fun f (s : Solver) => s.addFormula f)
      (fun formulas s => Ledger (loaded ++ formulas.flatMap Formula.clauses) s ∧ s.Tidy) := by
    rintro formulas f s hf ⟨hs, hstidy⟩
    obtain ⟨s', hadd⟩ := hstidy.addFormula_ok hs.unsolved hf.reachable hf.varCount_le
    have hle : ∀ lits ∈ f.clauses, ∀ l ∈ lits, l.var.number ≤ f.varCount :=
      fun lits hlits l hl => hf.reachable.wellFormed.number_le_of_mem hlits hl
    have hs' := hs.load hstidy hle
    have htidy' := hstidy.load f.varCount f.clauses
    rw [fitting, if_pos hf.varCount_le] at hs'
    rw [show s.load f.varCount f.clauses = (s', .ok ()) from hadd] at hs' htidy'
    refine ⟨s', hadd, ?_, htidy'⟩
    rwa [List.flatMap_append, List.flatMap_singleton, ← List.append_assoc]
  have hnone : Ledger (loaded ++ [].flatMap Formula.clauses) s := by
    rwa [List.flatMap_nil, List.append_nil]
  obtain ⟨hread, -⟩ := haccepting.readInto Error.read ⟨hnone, htidy⟩ source
  unfold Solver.addDimacs
  rcases hrun : Dimacs.readInto Error.read (fun f s => s.addFormula f) source s with
    ⟨s', e | reader⟩
  · rw [hrun] at hread
    simp only [hrun]
    exact ⟨hread.unsolved, hread.varCount_eq, hread.hasCapacity, hread.verdict_eq, hread.booked⟩
  · rw [hrun] at hread
    simp only [hrun]
    exact ⟨hread.unsolved, hread.varCount_eq, hread.hasCapacity, hread.verdict_eq, hread.booked⟩

end

/-- The clauses that a call loads, whether or not it succeeds. -/
def Call.loaded : Call → List (List Lit)
  | .configure _ => []
  | .addClause lits => [lits]
  | .addFormula f => fitting f.varCount f.clauses
  | .addDimacs source => (Dimacs.readParts source).1.flatMap Formula.clauses

theorem Ledger.call {loaded : List (List Lit)} {s : Solver} (h : Ledger loaded s) (htidy : s.Tidy)
    {call : Call} (hcall : call.WellFormed) : Ledger (loaded ++ call.loaded) (call.run s).1 := by
  cases call with
  | configure u =>
    rw [Call.loaded, List.append_nil]
    exact h.configure htidy u
  | addClause lits =>
    have hmax : Formula.maxVarNumber lits ≤ Var.maxNumber :=
      Formula.maxVarNumber_le_iff.2 fun l _ => l.var.le_max
    have hle : ∀ x ∈ [lits], ∀ l ∈ x, l.var.number ≤ Formula.maxVarNumber lits := by
      intro x hx l hl
      rw [List.mem_singleton.1 hx] at hl
      exact Formula.number_le_maxVarNumber hl
    have hload := h.load htidy hle
    rwa [fitting, if_pos hmax] at hload
  | addFormula f =>
    apply h.load htidy
    intro lits hlits l hl
    exact Formula.WellFormed.number_le_of_mem (Formula.Reachable.wellFormed hcall) hlits hl
  | addDimacs source => exact h.addDimacs htidy source

theorem Ledger.record {loaded : List (List Lit)} {s : Solver} (h : Ledger loaded s)
    (htidy : s.Tidy) {calls : List Call} (hcalls : ∀ call ∈ calls, call.WellFormed) :
    Ledger (loaded ++ calls.flatMap Call.loaded) (record calls s).2 ∧ (record calls s).2.Tidy := by
  induction calls generalizing loaded s with
  | nil =>
    rw [List.flatMap_nil, List.append_nil]
    exact ⟨h, htidy⟩
  | cons call calls ih =>
    rw [List.forall_mem_cons] at hcalls
    rw [List.flatMap_cons, ← List.append_assoc]
    exact ih (h.call htidy hcalls.1) (htidy.answers (.call s call)) hcalls.2

/-- What a solver has that was given the clauses: a bucket per variable, the canonical forms of the
clauses in the buckets, and their number by what became of them. -/
structure Filed (clauses : List (List Lit)) (s : Solver) : Prop where
  varCount_eq : s.varCount = s.row.size
  /-- The buckets follow their variables and were made with the settings in force. -/
  bucket : ∀ (i : Nat) (b : Bucket), s.row.buckets[i]? = some b →
    b.var.number = i + 1 ∧ b.order = s.config.order ∧
      ∀ p, ∀ chunk ∈ (b.side p).allChunks, chunk.capacity = s.config.chunkCapacity
  /-- No form is stored twice. -/
  nodup : s.row.clauses.Nodup
  booked : Booked clauses s.row s.stats

/-- Whatever was asked of a new solver before it solves, and whether or not it refused, it has filed
the clauses that were loaded before the first one without literals. -/
theorem record_filed {calls : List Call} (hcalls : ∀ call ∈ calls, call.WellFormed) :
    Filed (beforeEmpty (calls.flatMap Call.loaded)) (record calls new).2 := by
  obtain ⟨hledger, htidy⟩ := ledger_new.record tidy_new hcalls
  rw [List.nil_append] at hledger
  refine ⟨hledger.varCount_eq, ?_, htidy.wellFormed.nodup_clauses, hledger.booked⟩
  intro i b hb
  obtain ⟨-, horder, hindex⟩ := htidy.wellFormed i b hb
  have hone := b.var.one_le
  refine ⟨?_, horder, hledger.hasCapacity i b hb⟩
  unfold Var.index at hindex
  omega

/-- Calls of which some are refused: a formula with too many variables, a source that fails, and
settings that come too late.  A source passes in a clause and one without literals, after which
nothing is loaded. -/
def refusedCalls : List Call :=
  [.configure threeWorkers,
    .addClause [⟨default, .positive⟩, ⟨default, .positive⟩],
    .addFormula (Formula.empty.raiseVarCount (Var.maxNumber + 1)),
    .addClause [⟨default, .positive⟩, ⟨default, .negative⟩],
    .addDimacs [.failure "closed"],
    .configure threeWorkers,
    .addDimacs (sparseParts.map .data),
    .addClause [⟨default, .positive⟩]]

theorem loaded_refusedCalls : beforeEmpty (refusedCalls.flatMap Call.loaded) =
    [[⟨default, .positive⟩, ⟨default, .positive⟩], [⟨default, .positive⟩, ⟨default, .negative⟩],
      [⟨default, .negative⟩]] := by
  have hsparse : (Call.addDimacs (sparseParts.map .data)).loaded = [[⟨default, .negative⟩], []] :=
    Dimacs.flatMap_readParts_of_read (read_sparseFormula rfl)
  simp only [refusedCalls, List.flatMap_cons, hsparse]
  rfl

/-- The theorem on these calls. -/
theorem record_filed_refusedCalls :
    (∀ call ∈ refusedCalls, call.WellFormed) ∧
      Filed [[⟨default, .positive⟩, ⟨default, .positive⟩],
        [⟨default, .positive⟩, ⟨default, .negative⟩], [⟨default, .negative⟩]]
        (record refusedCalls new).2 := by
  have hwf : ∀ call ∈ refusedCalls, call.WellFormed := by
    simp only [refusedCalls, List.forall_mem_cons, Call.WellFormed, true_and]
    exact ⟨.raiseVarCount _ .empty, by simp⟩
  have hfiled := record_filed hwf
  rw [loaded_refusedCalls] at hfiled
  exact ⟨hwf, hfiled⟩

end Solver

end BucketElimination
