import BucketElimination.Proofs.BucketStacks
import Mathlib.Data.List.Induction
set_option autoImplicit false

/-!
# Packed chunks: what storing and removing do to the layout

As long as a bucket is not united with another, its chunks are packed: each chunk before the current
one is full, so the number of chunks is the number of clauses divided by the capacity, rounded up.
A fresh chunk is only begun when a clause arrives for which there is no room, whereas a chunk is
given up as soon as its last clause is removed.  At every multiple of the capacity the two cancel.

Clauses that were stored one after the other are removed in the reverse order.
-/

namespace BucketElimination

/-! ## Packed sides -/

/-- The number of chunks, of which all but the last are full and the last is empty only if it is the
only one. -/
theorem rounded_up {capacity full last : Nat} (hcapacity : 0 < capacity) (hle : last ≤ capacity)
    (hempty : last = 0 → full = 0) :
    full + 1 = max 1 ((full * capacity + last + capacity - 1) / capacity) := by
  rcases Nat.eq_zero_or_pos last with hzero | hpos
  · have hnone : (full * capacity + last + capacity - 1) / capacity = 0 := by
      rw [hempty hzero, hzero, Nat.zero_mul, Nat.zero_add]
      exact Nat.div_eq_of_lt (Nat.sub_lt hcapacity Nat.one_pos)
    rw [hnone, hempty hzero]
    rfl
  · have hsplit : full * capacity + last + capacity - 1 = last - 1 + (full + 1) * capacity := by
      rw [Nat.succ_mul]
      omega
    rw [hsplit, Nat.add_mul_div_right _ _ hcapacity, Nat.div_eq_of_lt (by omega), Nat.zero_add]
    omega

namespace Side

/-- Each chunk before the current one is full, and all have the same capacity. -/
structure Packed (capacity : Capacity) (s : Side) : Prop where
  wellFormed : s.WellFormed
  capacity_eq : ∀ chunk ∈ s.allChunks, chunk.capacity = capacity
  full : ∀ chunk ∈ s.chunks.toList, chunk.size = capacity.val

section

variable {capacity : Capacity} {s t : Side}

theorem packed_empty (capacity : Capacity) : (empty capacity).Packed capacity where
  wellFormed := wellFormed_empty capacity
  capacity_eq := by
    intro chunk hchunk
    rw [List.mem_singleton.1 hchunk]
    rfl
  full := by
    intro chunk hchunk
    cases hchunk

theorem Packed.capacity_current (h : s.Packed capacity) : s.current.capacity = capacity :=
  h.capacity_eq s.current (List.mem_append_right _ (List.mem_singleton_self _))

/-- Only a chunk that is full is followed by a fresh one. -/
theorem Packed.push (h : s.Packed capacity) (x : Clause) : (s.push x).Packed capacity := by
  have hcurrent := h.capacity_current
  have hearlier : ∀ chunk ∈ s.chunks.toList, chunk.capacity = capacity := fun chunk hchunk =>
    h.capacity_eq chunk (List.mem_append_left _ hchunk)
  refine ⟨h.wellFormed.push x, ?_, ?_⟩
  · cases hfull : s.current.isFull with
    | true =>
      rw [push_of_isFull hfull]
      intro chunk hchunk
      rw [allChunks, Array.toList_push, List.mem_append, List.mem_singleton] at hchunk
      rcases hchunk with hchunk | rfl
      · exact h.capacity_eq chunk hchunk
      · exact hcurrent
    | false =>
      rw [push_of_not_isFull hfull]
      intro chunk hchunk
      rw [allChunks, List.mem_append, List.mem_singleton] at hchunk
      rcases hchunk with hchunk | rfl
      · exact hearlier chunk hchunk
      · exact hcurrent
  · cases hfull : s.current.isFull with
    | true =>
      rw [push_of_isFull hfull]
      intro chunk hchunk
      rw [Array.toList_push, List.mem_append, List.mem_singleton] at hchunk
      rcases hchunk with hchunk | rfl
      · exact h.full chunk hchunk
      · rw [← hcurrent]
        simpa [Chunk.isFull, Chunk.size] using hfull
    | false =>
      rw [push_of_not_isFull hfull]
      exact h.full

/-- When the current chunk has lost its last clause, a full one becomes current. -/
theorem Packed.pop? {x : Clause} (h : s.Packed capacity) (hpop : s.pop? = some (x, t)) :
    t.Packed capacity := by
  obtain ⟨-, -, -, hcases⟩ := pop?_eq_some hpop
  rcases hcases with ⟨-, hprevious, hchunks⟩ | ⟨-, hcurrent, hchunks⟩
  · have hall : t.allChunks = s.chunks.toList := by
      obtain ⟨earlier, hearlier⟩ := Array.back?_eq_some_iff.1 hprevious
      rw [allChunks, hchunks, hearlier, Array.pop_push, Array.toList_push]
    refine ⟨h.wellFormed.pop? hpop, fun chunk hchunk => ?_, fun chunk hchunk => ?_⟩
    · exact h.capacity_eq chunk (List.mem_append_left _ (hall ▸ hchunk))
    · exact h.full chunk (hall ▸ List.mem_append_left _ hchunk)
  · refine ⟨h.wellFormed.pop? hpop, fun chunk hchunk => ?_, hchunks ▸ h.full⟩
    rw [allChunks, hchunks, hcurrent, List.mem_append, List.mem_singleton] at hchunk
    rcases hchunk with hchunk | rfl
    · exact h.capacity_eq chunk (List.mem_append_left _ hchunk)
    · exact h.capacity_current

/-- The clauses of a packed side fill its chunks one after the other. -/
theorem Packed.size_eq (h : s.Packed capacity) :
    s.size = s.chunks.size * capacity.val + s.current.size := by
  have hsizes : s.chunks.toList.map Chunk.size = List.replicate s.chunks.size capacity.val := by
    refine List.eq_replicate_iff.2 ⟨by simp, fun n hn => ?_⟩
    obtain ⟨chunk, hchunk, rfl⟩ := List.mem_map.1 hn
    exact h.full chunk hchunk
  rw [h.wellFormed.size_eq, toList_eq_current, List.length_append, List.length_flatMap,
    Chunk.length_toList]
  simp only [Chunk.length_toList]
  rw [hsizes, List.sum_replicate_nat]

theorem Packed.chunkCount_eq (h : s.Packed capacity) :
    s.chunkCount = max 1 ((s.size + capacity.val - 1) / capacity.val) := by
  rw [h.size_eq]
  refine rounded_up capacity.pos ?_ fun hzero => ?_
  · have hle := h.wellFormed.size_le_capacity s.current (by simp [allChunks])
    rwa [h.capacity_current] at hle
  · rw [← Chunk.length_toList, List.length_eq_zero_iff] at hzero
    rw [h.wellFormed.current_ne hzero, Array.size_empty]

end

end Side

namespace Bucket

/-! ## Storing and removing -/

/-- What can be asked of a bucket by itself. -/
inductive Call where
  | add (c : Clause) (p : Polarity)
  | pop (p : Polarity)

/-- The answer of a bucket. -/
inductive Reply where
  /-- The clause was new and is stored, or it was there. -/
  | added (new : Bool)
  | removed (c : Clause)
  /-- An internal check failed, and nothing was changed. -/
  | refused (f : Fault)
  deriving DecidableEq

/-- The bucket after a call, and its answer. -/
def answer (b : Bucket) : Call → Bucket × Reply
  | .add c p =>
    match b.add c p with
    | .error f => (b, .refused f)
    | .ok (b, new) => (b, .added new)
  | .pop p =>
    match b.pop p with
    | .error f => (b, .refused f)
    | .ok (b, c) => (b, .removed c)

/-- The bucket after a sequence of calls, and the answers to them. -/
def runCalls : List Call → Bucket → Bucket × List Reply
  | [], b => (b, [])
  | call :: calls, b =>
    let (b, reply) := b.answer call
    let (b, replies) := runCalls calls b
    (b, reply :: replies)

/-- A call stores a clause at the end of a side, removes the last clause of a side, or leaves the
bucket as it is. -/
theorem answer_cases (b : Bucket) (call : Call) :
    (∃ c p, call = .add c p ∧ (b.answer call).2 = .added true ∧
      (b.answer call).1.side p = (b.side p).push c ∧
      ∀ q, q ≠ p → (b.answer call).1.side q = b.side q) ∨
    (∃ c p left, call = .pop p ∧ (b.answer call).2 = .removed c ∧
      (b.side p).pop? = some (c, left) ∧ (b.answer call).1.side p = left ∧
      ∀ q, q ≠ p → (b.answer call).1.side q = b.side q) ∨
    ((b.answer call).1 = b ∧ (b.answer call).2 ≠ .added true ∧
      ∀ p, call = .pop p → (b.side p).pop? = none) := by
  cases call with
  | add c p =>
    simp only [answer]
    cases hadd : b.add c p with
    | error f => exact .inr (.inr ⟨rfl, by simp, by simp⟩)
    | ok added =>
      obtain rfl : b.store c ⟨b.var, p⟩ = added := (add_eq_ok hadd).2
      cases hknown : b.index.contains c.lits with
      | true =>
        rw [store_of_contains _ hknown]
        exact .inr (.inr ⟨rfl, by simp, by simp⟩)
      | false =>
        rw [store_of_not_contains _ hknown]
        refine .inl ⟨c, p, rfl, rfl, side_setSide_self _ _ _, fun q hq => ?_⟩
        rw [side_setSide_of_ne _ hq]
        cases q <;> rfl
  | pop p =>
    simp only [answer, pop_eq]
    cases hpop : (b.side p).pop? with
    | none =>
      refine .inr (.inr ⟨rfl, by simp, fun q hq => ?_⟩)
      cases hq
      exact hpop
    | some found =>
      obtain ⟨c, left⟩ := found
      refine .inr (.inl ⟨c, p, left, rfl, rfl, hpop, side_setSide_self _ _ _, fun q hq => ?_⟩)
      rw [side_setSide_of_ne _ hq]
      cases q <;> rfl

/-- Both sides are packed. -/
def Packed (capacity : Capacity) (b : Bucket) : Prop := ∀ p, (b.side p).Packed capacity

section

variable {capacity : Capacity} {b : Bucket}

theorem packed_empty (v : Var) (order : Order) (capacity : Capacity) :
    (empty v order capacity).Packed capacity := by
  intro p
  cases p <;> exact Side.packed_empty capacity

/-- No call unpacks a side. -/
theorem Packed.answer (h : b.Packed capacity) (call : Call) :
    (b.answer call).1.Packed capacity := by
  intro q
  obtain ⟨c, p, -, -, hside, hother⟩ | ⟨c, p, left, -, -, hpop, hside, hother⟩ | ⟨hsame, -⟩ :=
    b.answer_cases call
  · by_cases hq : q = p
    · rw [hq, hside]
      exact (h p).push c
    · rw [hother q hq]
      exact h q
  · by_cases hq : q = p
    · rw [hq, hside]
      exact (h p).pop? hpop
    · rw [hother q hq]
      exact h q
  · rw [hsame]
    exact h q

theorem Packed.runCalls (h : b.Packed capacity) (calls : List Call) :
    (Bucket.runCalls calls b).1.Packed capacity := by
  induction calls generalizing b with
  | nil => exact h
  | cons call calls ih => exact ih (h.answer call)

/-! ## First in, last out -/

/-- Clauses that were all stored are at the end of their side. -/
theorem toList_runCalls_add {p : Polarity} (cs : List Clause)
    (hnew : (Bucket.runCalls (cs.map (.add · p)) b).2 = cs.map fun _ => .added true) :
    ((Bucket.runCalls (cs.map (.add · p)) b).1.side p).toList = (b.side p).toList ++ cs := by
  induction cs generalizing b with
  | nil => exact (List.append_nil _).symm
  | cons c cs ih =>
    obtain ⟨hfirst, hrest⟩ := List.cons.inj hnew
    have hlist := ih (b := (b.answer (.add c p)).1) hrest
    obtain ⟨c', p', hcall, -, hside, -⟩ | ⟨c', p', left, hcall, -⟩ | ⟨-, hrefused, -⟩ :=
      b.answer_cases (.add c p)
    · cases hcall
      rw [hside, Side.toList_push, List.append_assoc] at hlist
      exact hlist
    · cases hcall
    · exact absurd hfirst hrefused

/-- As many clauses as are removed come off the end of the side, the last one first. -/
theorem Packed.runCalls_pop {p : Polarity} (h : b.Packed capacity) {below above : List Clause}
    (hlist : (b.side p).toList = below ++ above) :
    (Bucket.runCalls (List.replicate above.length (.pop p)) b).2 =
        above.reverse.map .removed ∧
      ((Bucket.runCalls (List.replicate above.length (.pop p)) b).1.side p).toList = below := by
  induction above using List.reverseRecOn generalizing b with
  | nil => exact ⟨rfl, hlist.trans (List.append_nil _)⟩
  | append_singleton above c ih =>
    rw [← List.append_assoc] at hlist
    rw [List.length_append, List.length_singleton, List.replicate_succ, List.reverse_append]
    obtain ⟨c', p', hcall, -⟩ | ⟨c', p', left, hcall, hreply, hpop, hside, -⟩ |
      ⟨-, -, hnone⟩ := b.answer_cases (.pop p)
    · cases hcall
    · cases hcall
      rw [Side.toList_pop? hpop] at hlist
      obtain ⟨hleft, hlast⟩ := List.append_inj' hlist rfl
      cases hlast
      rw [← hside] at hleft
      obtain ⟨hreplies, hbelow⟩ := ih (h.answer (.pop p)) hleft
      refine ⟨?_, hbelow⟩
      simp only [Bucket.runCalls, hreply, hreplies]
      rfl
    · have hnil := (h p).wellFormed.pop?_eq_none_iff.1 (hnone p rfl)
      rw [hnil] at hlist
      simp at hlist

end

/-- After any calls to a new bucket, each chunk before the current one holds as many clauses as it
can, the number of chunks is the number of clauses divided by the capacity and rounded up, and
clauses that are then stored one after the other on a side are removed from it in the reverse
order. -/
theorem runCalls_packed (v : Var) (order : Order) (capacity : Capacity) (calls : List Call)
    (p : Polarity) :
    let b := (runCalls calls (empty v order capacity)).1
    (∀ chunk ∈ (b.side p).chunks, chunk.size = capacity.val) ∧
      b.chunkCount p = max 1 ((b.size p + capacity.val - 1) / capacity.val) ∧
      ∀ cs : List Clause,
        (runCalls (cs.map (.add · p)) b).2 = cs.map (fun _ => .added true) →
          let full := (runCalls (cs.map (.add · p)) b).1
          (runCalls (List.replicate cs.length (.pop p)) full).2 = cs.reverse.map .removed ∧
            (runCalls (List.replicate cs.length (.pop p)) full).1.clauses p = b.clauses p := by
  intro b
  have hpacked : b.Packed capacity := (packed_empty v order capacity).runCalls calls
  refine ⟨fun chunk hchunk => ?_, (hpacked p).chunkCount_eq, fun cs hnew => ?_⟩
  · exact (hpacked p).full chunk (Array.mem_toList_iff.2 hchunk)
  · have hfull := hpacked.runCalls (cs.map (.add · p))
    obtain ⟨hreplies, hbelow⟩ := hfull.runCalls_pop (toList_runCalls_add cs hnew)
    refine ⟨hreplies, ?_⟩
    have hrest := hfull.runCalls (List.replicate cs.length (.pop p))
    rw [clauses, clauses, (hrest p).wellFormed.walk_eq, (hpacked p).wellFormed.walk_eq, hbelow]

/-- A clause is stored, refused as a duplicate and removed, and then a clause is asked for that is
not there. -/
def idleCalls : List Call :=
  [.add (pairClause .positive) .positive, .add (pairClause .positive) .positive, .pop .positive,
    .pop .positive]

/-- The theorem on a bucket to which these calls were made: two clauses, each in a chunk of its own,
are removed again in the reverse order. -/
theorem runCalls_packed_idleCalls :
    let b := (runCalls idleCalls (empty pivotVar .descending ⟨1, Nat.one_pos⟩)).1
    let adds : List Call := [pairClause .positive, pairClause .negative].map (.add · .positive)
    (runCalls adds b).2 = [.added true, .added true] ∧
      (runCalls adds b).1.chunkCount .positive = 2 ∧
      (runCalls [.pop .positive, .pop .positive] (runCalls adds b).1).2 =
        [.removed (pairClause .negative), .removed (pairClause .positive)] := by
  intro b adds
  have hnew : (runCalls adds b).2 = [.added true, .added true] := rfl
  obtain ⟨-, -, hstack⟩ :=
    runCalls_packed pivotVar .descending ⟨1, Nat.one_pos⟩ idleCalls .positive
  exact ⟨hnew, rfl, (hstack [pairClause .positive, pairClause .negative] hnew).1⟩

end Bucket

end BucketElimination
