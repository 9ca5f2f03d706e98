import BucketElimination.Proofs.ChunkWalks
import BucketElimination.Storage.Side
set_option autoImplicit false

/-!
# Chunked sides: the list behind the chunks

A cursor over the chunks of a side passes the clauses of their concatenation, so walking over a side
whose size is right yields its list.  Storing, removing and splicing act on the list at its end and
keep the side well formed.
-/

namespace BucketElimination.Side

/-- What a cursor over the first clauses of a side passes is a prefix of its list. -/
theorem due_cursor (s : Side) (count : Nat) : (s.cursor count).due = s.toList.take count := by
  rw [cursor, Cursor.due_start, toList_eq_current]

theorem toList_cursor (s : Side) (count : Nat) :
    (s.cursor count).toList = s.toList.take count := by
  rw [Cursor.toList_eq, due_cursor]

/-- What holds of every side that was filled clause by clause or chunk by chunk. -/
structure WellFormed (s : Side) : Prop where
  size_eq : s.size = s.toList.length
  /-- No chunk before the current one is empty. -/
  chunks_ne : ∀ c ∈ s.chunks.toList, c.toList ≠ []
  /-- The current chunk is empty only if it is the only one. -/
  current_ne : s.current.toList = [] → s.chunks = #[]
  size_le_capacity : ∀ c ∈ s.allChunks, c.size ≤ c.capacity.val
  length_le_maxLength : ∀ x ∈ s.toList, x.length ≤ s.maxLength

/-- Walking over a well formed side yields all of its clauses. -/
theorem WellFormed.walk_eq {s : Side} (h : s.WellFormed) : s.walk = s.toList := by
  rw [walk, toList_cursor, h.size_eq, List.take_length]

theorem wellFormed_empty (capacity : Capacity) : (empty capacity).WellFormed where
  size_eq := rfl
  chunks_ne := by simp [empty]
  current_ne := fun _ => rfl
  size_le_capacity := by simp [empty, allChunks, Chunk.size, Chunk.empty]
  length_le_maxLength := by simp

/-! ### Storing -/

theorem push_of_isFull {s : Side} (h : s.current.isFull = true) (x : Clause) :
    s.push x =
      { chunks := s.chunks.push s.current
        current := (Chunk.empty s.current.capacity).push x
        size := s.size + 1
        maxLength := max s.maxLength x.length } := by
  cases s
  exact if_pos h

theorem push_of_not_isFull {s : Side} (h : s.current.isFull = false) (x : Clause) :
    s.push x =
      { chunks := s.chunks
        current := s.current.push x
        size := s.size + 1
        maxLength := max s.maxLength x.length } := by
  cases s
  exact if_neg (by simpa using h)

/-- A stored clause comes last. -/
theorem toList_push (s : Side) (x : Clause) : (s.push x).toList = s.toList ++ [x] := by
  cases h : s.current.isFull with
  | true => simp [push_of_isFull h, toList_eq_current]
  | false => simp [push_of_not_isFull h, toList_eq_current]

theorem size_push (s : Side) (x : Clause) : (s.push x).size = s.size + 1 := by
  cases h : s.current.isFull with
  | true => rw [push_of_isFull h]
  | false => rw [push_of_not_isFull h]

theorem maxLength_push (s : Side) (x : Clause) :
    (s.push x).maxLength = max s.maxLength x.length := by
  cases h : s.current.isFull with
  | true => rw [push_of_isFull h]
  | false => rw [push_of_not_isFull h]

/-- A full chunk has a clause, for its capacity is positive. -/
theorem toList_ne_nil_of_isFull {c : Chunk} (h : c.isFull = true) : c.toList ≠ [] := by
  intro hnil
  have hsize : c.clauses.size = c.capacity.val := by simpa [Chunk.isFull] using h
  have hzero : c.clauses.size = 0 := by simpa [Chunk.toList] using hnil
  have hpos := c.capacity.pos
  omega

theorem WellFormed.push {s : Side} (h : s.WellFormed) (x : Clause) : (s.push x).WellFormed where
  size_eq := by rw [size_push, toList_push, List.length_append, h.size_eq]; rfl
  length_le_maxLength := by
    intro y hy
    rw [toList_push, List.mem_append, List.mem_singleton] at hy
    rw [maxLength_push]
    rcases hy with hy | rfl
    · exact Nat.le_trans (h.length_le_maxLength y hy) (Nat.le_max_left _ _)
    · exact Nat.le_max_right _ _
  chunks_ne := by
    cases hfull : s.current.isFull with
    | true =>
      rw [push_of_isFull hfull]
      intro c hc
      rw [Array.toList_push, List.mem_append, List.mem_singleton] at hc
      rcases hc with hc | rfl
      · exact h.chunks_ne c hc
      · exact toList_ne_nil_of_isFull hfull
    | false =>
      rw [push_of_not_isFull hfull]
      exact h.chunks_ne
  current_ne := by
    cases hfull : s.current.isFull with
    | true => simp [push_of_isFull hfull]
    | false => simp [push_of_not_isFull hfull]
  size_le_capacity := by
    cases hfull : s.current.isFull with
    | true =>
      rw [push_of_isFull hfull]
      intro c hc
      rw [allChunks, Array.toList_push, List.mem_append, List.mem_singleton] at hc
      rcases hc with hc | rfl
      · exact h.size_le_capacity c hc
      · exact s.current.capacity.pos
    | false =>
      rw [push_of_not_isFull hfull]
      intro c hc
      rcases List.mem_append.1 hc with hc | hc
      · exact h.size_le_capacity c (List.mem_append_left _ hc)
      · rw [List.mem_singleton.1 hc]
        have hle : s.current.clauses.size ≤ s.current.capacity.val :=
          h.size_le_capacity s.current (by simp [allChunks])
        have hne : s.current.clauses.size ≠ s.current.capacity.val := by
          simpa [Chunk.isFull] using hfull
        simp only [Chunk.size, Chunk.push, Array.size_push]
        omega

/-! ### Removing -/

/-- Only a side without clauses has none to remove. -/
theorem WellFormed.pop?_eq_none_iff {s : Side} (h : s.WellFormed) :
    s.pop? = none ↔ s.toList = [] := by
  constructor
  · intro hpop
    have hcurrent : s.current.toList = [] := by
      obtain ⟨chunks, current, size, maxLength⟩ := s
      rw [pop?] at hpop
      cases hback : current.clauses.back? with
      | none => simpa [Chunk.toList, Array.back?_eq_none_iff] using hback
      | some x =>
        rw [Chunk.pop?_eq_some_iff.2 ⟨hback, rfl⟩] at hpop
        simp only at hpop
        split at hpop
        · split at hpop <;> cases hpop
        · cases hpop
    rw [toList_eq_current, h.current_ne hcurrent, hcurrent]
    rfl
  · intro hnil
    cases hpop : s.pop? with
    | none => rfl
    | some found =>
      have := toList_pop? (x := found.1) (t := found.2) hpop
      rw [hnil] at this
      simp at this

/-- What removing a clause leaves of the chunks, the size and the longest length. -/
theorem pop?_eq_some {s t : Side} {x : Clause} (h : s.pop? = some (x, t)) :
    t.size = s.size - 1 ∧ t.maxLength = s.maxLength ∧ s.current.clauses.back? = some x ∧
      ((s.current.pop.toList = [] ∧ s.chunks.back? = some t.current ∧ t.chunks = s.chunks.pop) ∨
        ((s.current.pop.toList = [] → s.chunks = #[]) ∧ t.current = s.current.pop ∧
          t.chunks = s.chunks)) := by
  obtain ⟨chunks, current, size, maxLength⟩ := s
  rw [pop?] at h
  cases hback : current.clauses.back? with
  | none => simp [Chunk.pop?, hback] at h
  | some y =>
    rw [Chunk.pop?_eq_some_iff.2 ⟨hback, rfl⟩] at h
    simp only at h
    split at h
    · rename_i hempty
      rw [Chunk.isEmpty_iff] at hempty
      split at h
      · rename_i previous hprevious
        cases h
        exact ⟨rfl, rfl, rfl, .inl ⟨hempty, hprevious, rfl⟩⟩
      · rename_i hnone
        cases h
        exact ⟨rfl, rfl, rfl, .inr ⟨fun _ => Array.back?_eq_none_iff.1 hnone, rfl, rfl⟩⟩
    · rename_i hempty
      rw [Chunk.isEmpty_iff] at hempty
      cases h
      exact ⟨rfl, rfl, rfl, .inr ⟨fun hnil => absurd hnil hempty, rfl, rfl⟩⟩

theorem WellFormed.pop? {s t : Side} {x : Clause} (h : s.WellFormed)
    (hpop : s.pop? = some (x, t)) : t.WellFormed := by
  have hlist := toList_pop? hpop
  obtain ⟨hsize, hmax, hback, hcases⟩ := pop?_eq_some hpop
  have hsize_eq : t.size = t.toList.length := by
    rw [hsize, h.size_eq, hlist, List.length_append, List.length_singleton, Nat.add_sub_cancel]
  have hlength : ∀ y ∈ t.toList, y.length ≤ t.maxLength := by
    intro y hy
    rw [hmax]
    exact h.length_le_maxLength y (hlist ▸ List.mem_append_left _ hy)
  rcases hcases with ⟨-, hprevious, hchunks⟩ | ⟨hnil, hcurrent, hchunks⟩
  · obtain ⟨earlier, hearlier⟩ := Array.back?_eq_some_iff.1 hprevious
    have hpop : s.chunks.pop = earlier := by rw [hearlier]; simp
    have hmem : ∀ c ∈ t.allChunks, c ∈ s.chunks.toList := by
      intro c hc
      rw [allChunks, hchunks, hpop] at hc
      rw [hearlier, Array.toList_push]
      exact hc
    refine ⟨hsize_eq, fun c hc => ?_, fun hcur => ?_, fun c hc => ?_, hlength⟩
    · exact h.chunks_ne c (hmem c (List.mem_append_left _ hc))
    · exact absurd hcur (h.chunks_ne t.current (hmem _ (by simp [allChunks])))
    · exact h.size_le_capacity c (List.mem_append_left _ (hmem c hc))
  · refine ⟨hsize_eq, hchunks ▸ h.chunks_ne, fun hcur => ?_, fun c hc => ?_, hlength⟩
    · rw [hchunks]
      exact hnil (hcurrent ▸ hcur)
    · rw [allChunks, hchunks, hcurrent] at hc
      rcases List.mem_append.1 hc with hc | hc
      · exact h.size_le_capacity c (List.mem_append_left _ hc)
      · rw [List.mem_singleton.1 hc]
        have hle : s.current.clauses.size ≤ s.current.capacity.val :=
          h.size_le_capacity s.current (by simp [allChunks])
        simp only [Chunk.size, Chunk.pop, Array.size_pop]
        omega

/-! ### Splicing -/

/-- The clauses of a spliced chunk come last. -/
theorem toList_splice (s : Side) (chunk : Chunk) (hne : chunk.isEmpty = false) :
    (s.splice chunk hne).toList = s.toList ++ chunk.toList := by
  cases h : s.current.isEmpty with
  | true =>
    have hnil : s.current.toList = [] := (Chunk.isEmpty_iff _).1 h
    simp [splice, toList_eq_current, h, hnil]
  | false => simp [splice, toList_eq_current, h]

theorem length_le_maxLength_chunk {c : Chunk} {x : Clause} (h : x ∈ c.toList) :
    x.length ≤ c.maxLength := by
  have key : ∀ (xs : List Clause) (n : Nat),
      n ≤ xs.foldl (fun n x => max n x.length) n ∧
        ∀ x ∈ xs, x.length ≤ xs.foldl (fun n x => max n x.length) n := by
    intro xs
    induction xs with
    | nil => simp
    | cons y ys ih =>
      intro n
      obtain ⟨hle, hall⟩ := ih (max n y.length)
      refine ⟨Nat.le_trans (Nat.le_max_left _ _) hle, fun x hx => ?_⟩
      rcases List.mem_cons.1 hx with rfl | hx
      · exact Nat.le_trans (Nat.le_max_right _ _) hle
      · exact hall x hx
  rw [Chunk.maxLength, ← Array.foldl_toList]
  exact (key c.clauses.toList 0).2 x h

theorem WellFormed.splice {s : Side} (h : s.WellFormed) {chunk : Chunk}
    (hne : chunk.isEmpty = false) (hcap : chunk.size ≤ chunk.capacity.val) :
    (s.splice chunk hne).WellFormed where
  size_eq := by
    rw [toList_splice, List.length_append, ← h.size_eq, Chunk.length_toList]
    rfl
  chunks_ne := by
    intro c hc
    cases hcur : s.current.isEmpty with
    | true =>
      simp only [Side.splice, hcur, if_true] at hc
      exact h.chunks_ne c hc
    | false =>
      simp only [Side.splice, hcur, Bool.false_eq_true, if_false, Array.toList_push,
        List.mem_append, List.mem_singleton] at hc
      rcases hc with hc | rfl
      · exact h.chunks_ne c hc
      · intro hnil
        rw [← Chunk.isEmpty_iff, hcur] at hnil
        cases hnil
  current_ne := by
    intro hnil
    rw [← Chunk.isEmpty_iff] at hnil
    exact absurd (hne.symm.trans hnil) Bool.false_ne_true
  size_le_capacity := by
    intro c hc
    rw [allChunks, List.mem_append, List.mem_singleton] at hc
    rcases hc with hc | rfl
    · refine h.size_le_capacity c ?_
      cases hcur : s.current.isEmpty with
      | true =>
        simp only [Side.splice, hcur, if_true] at hc
        exact List.mem_append_left _ hc
      | false =>
        simpa [Side.splice, hcur, allChunks] using hc
    · exact hcap
  length_le_maxLength := by
    intro x hx
    rw [toList_splice, List.mem_append] at hx
    rcases hx with hx | hx
    · exact Nat.le_trans (h.length_le_maxLength x hx) (Nat.le_max_left _ _)
    · exact Nat.le_trans (length_le_maxLength_chunk hx) (Nat.le_max_right _ _)

end BucketElimination.Side
