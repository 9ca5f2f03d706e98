import BucketElimination.Proofs.ReachableBuckets
import Mathlib.Algebra.Order.Ring.Int
set_option autoImplicit false

/-!
# Buckets and their index

A bucket keeps its clauses twice: in the chunks of its two sides, and in groups of equal signature in
its index.  Neither storing nor removing nor uniting lets the two come apart.  The groups are only
changed by putting clauses in and taking clauses out, and both act on the group of the signature, so
every clause of a group belongs there; together with the invariant of buckets this says what each
group holds.
-/

namespace BucketElimination

/-! ## Groups -/

namespace DuplicateIndex

/-- Every list of literals is in the group of its signature. -/
def Grouped (index : DuplicateIndex) : Prop :=
  ∀ s lits, (index.group s).contains lits = true → s = signature lits

theorem grouped_empty : empty.Grouped := by
  intro s lits hmem
  simp [group, empty] at hmem

/-- What is put in joins the group of its signature, and no other group changes. -/
theorem Grouped.insert {index : DuplicateIndex} (h : index.Grouped) (c : Clause) :
    (index.insert c).1.Grouped := by
  intro s lits hmem
  rw [contains_group_insert, Bool.or_eq_true, decide_eq_true_eq] at hmem
  rcases hmem with ⟨rfl, rfl⟩ | hmem
  · rfl
  · exact h s lits hmem

/-- What is taken out leaves its group, and nothing joins one. -/
theorem Grouped.erase {index : DuplicateIndex} (h : index.Grouped) (gone : List Lit) :
    (index.erase gone).1.Grouped := by
  intro s lits hmem
  rw [contains_group_erase, Bool.and_eq_true] at hmem
  exact h s lits hmem.2

/-- A group holds what the index contains with its signature. -/
theorem Grouped.contains_group_iff {index : DuplicateIndex} (h : index.Grouped) (s : Signature)
    (lits : List Lit) :
    (index.group s).contains lits = true ↔ s = signature lits ∧ index.contains lits = true := by
  constructor
  · intro hmem
    have hs := h s lits hmem
    refine ⟨hs, ?_⟩
    rw [contains, ← hs]
    exact hmem
  · intro hboth
    rw [hboth.1]
    exact hboth.2

end DuplicateIndex

namespace Bucket

/-! ## Taking over clauses only puts clauses in -/

namespace Intake

variable {P : DuplicateIndex → Prop} (hinsert : ∀ index c, P index → P (index.insert c).1)

include hinsert

theorem index_take {i : Intake} (h : P i.index) (c : Clause) : P (i.take c).index := by
  have hnext := hinsert i.index c h
  obtain ⟨index, side, dropped⟩ := i
  rcases hrun : index.insert c with ⟨index', _ | _⟩
  · rw [hrun] at hnext
    simpa only [take, hrun] using hnext
  · rw [hrun] at hnext
    simpa only [take, hrun] using hnext

theorem index_fill {i : Intake} (h : P i.index) (source : Side) : P (i.fill source).1.index := by
  fun_induction fill i source with
  | case1 i source hfull => exact h
  | case2 i source hfull hpop => exact h
  | case3 i source hfull c rest hpop ih => exact ih (index_take hinsert h c)

theorem index_keepNew {index : DuplicateIndex} (h : P index) (cs : List Clause) :
    P (keepNew index cs).1 := by
  induction cs generalizing index with
  | nil => exact h
  | cons c cs ih =>
    have hnext := hinsert index c h
    rcases hrun : index.insert c with ⟨index', _ | _⟩
    · rw [hrun] at hnext
      simpa only [keepNew, hrun] using ih hnext
    · rw [hrun] at hnext
      simpa only [keepNew, hrun] using ih hnext

theorem index_takeChunk {i : Intake} (h : P i.index) (chunk : Chunk) :
    P (i.takeChunk chunk).index := by
  have hnext := index_keepNew hinsert h chunk.toList
  simp only [takeChunk]
  split
  · exact hnext
  · exact hnext

theorem index_foldl_takeChunk {i : Intake} (h : P i.index) (chunks : List Chunk) :
    P (chunks.foldl takeChunk i).index := by
  induction chunks generalizing i with
  | nil => exact h
  | cons chunk chunks ih =>
    rw [List.foldl_cons]
    exact ih (index_takeChunk hinsert h chunk)

/-- What putting a clause in keeps, taking over a side keeps. -/
theorem index_takeSide {i : Intake} (h : P i.index) (source : Side) :
    P (i.takeSide source).index := by
  have hfill := index_fill hinsert h source
  rw [takeSide]
  rcases hrun : i.fill source with ⟨j, _ | rest⟩
  · rw [hrun] at hfill
    exact hfill
  · rw [hrun] at hfill
    exact index_foldl_takeChunk hinsert hfill rest.allChunks

end Intake

/-! ## Reachable buckets -/

theorem index_store (b : Bucket) (c : Clause) (pivot : Lit) :
    (b.store c pivot).1.index = (b.index.insert c).1 := by
  cases hc : b.index.contains c.lits with
  | true => rw [store_of_contains pivot hc, DuplicateIndex.insert_of_contains hc]
  | false => rw [store_of_not_contains pivot hc, index_setSide]

theorem grouped_absorb {b : Bucket} (h : b.index.Grouped) (p : Polarity) (source : Side) :
    (b.absorb p source).1.index.Grouped := by
  rw [absorb_eq, index_setSide]
  apply Intake.index_takeSide
  · intro index c hindex
    exact hindex.insert c
  · exact h

/-- In the index of a bucket every clause is in the group of its signature. -/
theorem Made.grouped {v : Var} {allowed : Order → Prop} {b : Bucket} (h : b.Made v allowed) :
    b.index.Grouped := by
  induction h with
  | empty capacity _ => exact DuplicateIndex.grouped_empty
  | @add b b' c p new _ hadd ih =>
    have hindex := index_store b c ⟨b.var, p⟩
    rw [(add_eq_ok hadd).2] at hindex
    rw [hindex]
    exact ih.insert c
  | @pop b b' c p _ hpop ih =>
    obtain ⟨side, -, rfl⟩ := pop_eq_ok hpop
    rw [index_setSide]
    exact ih.erase c.lits
  | @union b other b' dropped _ _ hunion ih ih' =>
    have hindex := (union_eq_ok hunion).2
    rw [absorbSides_eq] at hindex
    cases hindex
    apply grouped_absorb
    apply grouped_absorb
    exact ih

/-- What holds of every bucket made by storing, removing and uniting: each side counts the clauses of
its chunks, none of which is empty or too full, and knows a bound on their length; no clause is stored
twice; each clause is canonical and filed under its pivot; and the groups of the index hold exactly
the stored clauses, which the index counts. -/
theorem reachable_consistent {v : Var} {order : Order} {b : Bucket} (h : b.Reachable v order) :
    (∀ p, b.size p = ((b.side p).allChunks.map Chunk.size).sum ∧
      (∀ chunk ∈ (b.side p).chunks, chunk.size ≠ 0) ∧
      ((b.side p).current.size = 0 → (b.side p).chunks.size = 0) ∧
      (∀ chunk ∈ (b.side p).allChunks, chunk.size ≤ chunk.capacity.val) ∧
      ∀ c ∈ (b.side p).toList, isCanonical c.lits = true ∧ order.pivot? c.lits = some ⟨v, p⟩ ∧
        c.length ≤ b.maxLength p) ∧
    ((b.side .positive).toList ++ (b.side .negative).toList).Nodup ∧
    (∀ s lits, (b.index.group s).contains lits = true ↔
      s = signature lits ∧ ∃ p, ∃ c ∈ (b.side p).toList, c.lits = lits) ∧
    b.index.size = b.size .positive + b.size .negative := by
  obtain ⟨hwf, rfl, rfl⟩ := h.wellFormed
  refine ⟨?_, ?_, ?_, hwf.index_size⟩
  · intro p
    have hside := hwf.side p
    refine ⟨?_, ?_, ?_, hside.size_le_capacity, ?_⟩
    · rw [size, hside.size_eq, Side.toList, List.length_flatMap]
      simp only [Chunk.length_toList]
    · intro chunk hchunk hzero
      apply hside.chunks_ne chunk (Array.mem_toList_iff.2 hchunk)
      rw [← List.length_eq_zero_iff, Chunk.length_toList]
      exact hzero
    · intro hzero
      rw [← Chunk.length_toList, List.length_eq_zero_iff] at hzero
      rw [hside.current_ne hzero, Array.size_empty]
    · intro c hc
      exact ⟨c.canonical, hwf.filed p c hc, hside.length_le_maxLength c hc⟩
  · have hnodup := hwf.nodup_allClauses
    rw [allClauses_eq, hwf.clauses_eq, hwf.clauses_eq] at hnodup
    exact hnodup
  · intro s lits
    rw [(Made.grouped h).contains_group_iff, hwf.indexed]

/-- The second variable. -/
def pivotVar : Var := ⟨2, by decide, by decide⟩

/-- The clause of a literal of the first variable and the second variable. -/
def pairClause (p : Polarity) : Clause := ⟨[⟨default, p⟩, ⟨pivotVar, .positive⟩], by cases p <;> rfl⟩

/-- A bucket with both of these clauses, each in a chunk of its own. -/
def pairBucket : Bucket :=
  (((empty pivotVar .descending ⟨1, by decide⟩).store (pairClause .positive)
    ⟨pivotVar, .positive⟩).1.store (pairClause .negative) ⟨pivotVar, .positive⟩).1

/-- A unit of the second variable. -/
def pivotUnit (p : Polarity) : Clause := ⟨[⟨pivotVar, p⟩], rfl⟩

/-- A bucket with one of the pair and the unit of the second variable, in a chunk of at most two. -/
def unitBucket : Bucket :=
  (((empty pivotVar .descending ⟨2, by decide⟩).store (pairClause .negative)
    ⟨pivotVar, .positive⟩).1.store (pivotUnit .positive) ⟨pivotVar, .positive⟩).1

/-- The clause of the first variable and the negated second variable. -/
def crossClause : Clause := ⟨[⟨default, .positive⟩, ⟨pivotVar, .negative⟩], rfl⟩

theorem reachable_pairBucket : pairBucket.Reachable pivotVar .descending := by
  have hempty : (empty pivotVar .descending ⟨1, by decide⟩).Reachable pivotVar .descending :=
    .empty _ rfl
  have hfirst := hempty.add (rfl : Bucket.add _ (pairClause .positive) .positive = .ok (_, true))
  exact hfirst.add (rfl : Bucket.add _ (pairClause .negative) .positive = .ok (pairBucket, true))

theorem reachable_unitBucket : unitBucket.Reachable pivotVar .descending := by
  have hempty : (empty pivotVar .descending ⟨2, by decide⟩).Reachable pivotVar .descending :=
    .empty _ rfl
  have hfirst := hempty.add (rfl : Bucket.add _ (pairClause .negative) .positive = .ok (_, true))
  exact hfirst.add (rfl : Bucket.add _ (pivotUnit .positive) .positive = .ok (unitBucket, true))

/-- The theorem on the union of two buckets that have a clause in common: the index of the united
bucket knows the clauses of both. -/
theorem reachable_consistent_union :
    (pairBucket.absorbSides unitBucket).1.Reachable pivotVar .descending ∧
      ∀ c ∈ pairBucket.allClauses ++ unitBucket.allClauses,
        ((pairBucket.absorbSides unitBucket).1.index.group (signature c.lits)).contains c.lits =
          true := by
  have hunion : (pairBucket.absorbSides unitBucket).1.Reachable pivotVar .descending :=
    reachable_pairBucket.union reachable_unitBucket (if_pos rfl)
  refine ⟨hunion, ?_⟩
  intro c hc
  have hof := reachable_pairBucket.wellFormed.1.unionOf reachable_unitBucket.wellFormed.1 rfl rfl
  obtain ⟨p, hp⟩ := mem_allClauses.1 ((hof.mem_allClauses c).2 (List.mem_append.1 hc))
  rw [hof.wellFormed.clauses_eq] at hp
  obtain ⟨-, -, hindex, -⟩ := reachable_consistent hunion
  exact (hindex _ _).2 ⟨rfl, p, c, hp, rfl⟩

end Bucket

end BucketElimination
