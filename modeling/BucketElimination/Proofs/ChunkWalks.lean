import BucketElimination.Storage.Cursor
set_option autoImplicit false

/-!
# Walks over chunks

Whatever the sizes of the chunks, a cursor passes the clauses of their concatenation one by one, in
order, up to the number that was asked for.  Before each clause it knows how many are still to come,
and after the last one it answers that there is none, however often it is asked.

What carries this is the list of clauses ahead of a position.  Leaving an exhausted chunk behind does
not change this list, and passing a clause takes its first one off.
-/

namespace BucketElimination.Cursor

variable {c : Cursor}

/-! ## The clauses ahead -/

/-- All chunks in storage order. -/
def allChunks (c : Cursor) : List Chunk := c.chunks.toList ++ [c.current]

/-- The clauses from the position on, in storage order. -/
def ahead (c : Cursor) : List Clause :=
  c.here.toList.drop c.offset ++ (c.allChunks.drop (c.chunk + 1)).flatMap Chunk.toList

/-- The clauses that the cursor is going to pass. -/
def due (c : Cursor) : List Clause := c.ahead.take c.remaining

/-- The chunk being walked over is the one with its number, or the last one. -/
theorem getElem?_allChunks (h : c.chunk ≤ c.chunks.size) :
    c.allChunks[c.chunk]? = some c.here := by
  rcases Nat.lt_or_eq_of_le h with hlt | heq
  · rw [allChunks, List.getElem?_append_left (by simpa using hlt), here]
    simp [hlt]
  · rw [allChunks, here, heq]
    simp

/-- The list of chunks from the position on begins with the chunk being walked over. -/
theorem drop_allChunks (h : c.chunk ≤ c.chunks.size) :
    c.allChunks.drop c.chunk = c.here :: c.allChunks.drop (c.chunk + 1) := by
  obtain ⟨hlt, hhere⟩ := List.getElem?_eq_some_iff.1 (getElem?_allChunks h)
  rw [List.drop_eq_getElem_cons hlt, hhere]

/-- At the beginning of a chunk all clauses of the chunks from it on are ahead. -/
theorem ahead_of_offset_zero (h : c.chunk ≤ c.chunks.size) (hoffset : c.offset = 0) :
    c.ahead = (c.allChunks.drop c.chunk).flatMap Chunk.toList := by
  rw [drop_allChunks h, List.flatMap_cons, ahead, hoffset, List.drop_zero]

/-- At the start everything is ahead. -/
theorem ahead_start (chunks : Array Chunk) (current : Chunk) (count : Nat) :
    (start chunks current count).ahead =
      chunks.toList.flatMap Chunk.toList ++ current.toList := by
  rw [ahead_of_offset_zero (Nat.zero_le _) rfl]
  simp [start, allChunks]

theorem due_start (chunks : Array Chunk) (current : Chunk) (count : Nat) :
    (start chunks current count).due =
      (chunks.toList.flatMap Chunk.toList ++ current.toList).take count := by
  rw [due, ahead_start]
  rfl

/-- Leaving an exhausted chunk behind changes nothing about what is ahead. -/
theorem ahead_skip (h : c.chunk < c.chunks.size) (hoffset : c.here.toList.length ≤ c.offset) :
    c.skip.ahead = c.ahead := by
  have hskip : c.skip.ahead = (c.allChunks.drop (c.chunk + 1)).flatMap Chunk.toList :=
    ahead_of_offset_zero (c := c.skip) h rfl
  rw [hskip, ahead, List.drop_eq_nil_of_le hoffset, List.nil_append]

/-! ## One clause -/

/-- Seeking passes the first clause ahead, and finds none only if there is none. -/
theorem seek_eq (c : Cursor) :
    match c.seek with
    | none => c.ahead = []
    | some (x, d) => c.ahead = x :: d.ahead ∧ d.remaining = c.remaining - 1 := by
  fun_induction seek c with
  | case1 c x hget =>
    rw [Chunk.get?_eq] at hget
    obtain ⟨hlt, hx⟩ := List.getElem?_eq_some_iff.1 hget
    refine ⟨?_, rfl⟩
    rw [ahead, List.drop_eq_getElem_cons hlt, hx]
    rfl
  | case2 c hget hend =>
    rw [Chunk.get?_eq, List.getElem?_eq_none_iff] at hget
    have hlast : c.allChunks.drop (c.chunk + 1) = [] := by
      apply List.drop_eq_nil_of_le
      simpa [allChunks] using hend
    rw [ahead, hlast, List.drop_eq_nil_of_le hget]
    rfl
  | case3 c hget hend ih =>
    rw [Chunk.get?_eq, List.getElem?_eq_none_iff] at hget
    rw [← ahead_skip (Nat.lt_of_not_le hend) hget]
    exact ih

/-- The next clause is the first one due, and the others are due after it. -/
theorem next_eq (c : Cursor) :
    match c.next with
    | none => c.due = []
    | some (x, d) => c.due = x :: d.due ∧ c.remaining = d.remaining + 1 := by
  cases hremaining : c.remaining with
  | zero =>
    rw [next_of_remaining_zero hremaining]
    simp [due, hremaining]
  | succ remaining =>
    have hseek := seek_eq c
    rw [next, if_neg (by omega)]
    cases hfound : c.seek with
    | none =>
      rw [hfound] at hseek
      simp only at hseek ⊢
      rw [due, hseek, List.take_nil]
    | some found =>
      obtain ⟨x, d⟩ := found
      rw [hfound] at hseek
      obtain ⟨hahead, hleft⟩ := hseek
      rw [hremaining, Nat.add_sub_cancel] at hleft
      refine ⟨?_, by rw [hleft]⟩
      rw [due, hahead, hremaining, List.take_succ_cons, due, hleft]

/-! ## Many clauses -/

/-- A cursor passes the clauses that are due in their order. -/
theorem take_eq (n : Nat) (c : Cursor) : c.take n = c.due.take n := by
  induction n generalizing c with
  | zero => rw [take, List.take_zero]
  | succ n ih =>
    have hnext := next_eq c
    rw [take]
    split
    · rename_i hnone
      rw [hnone] at hnext
      rw [hnext, List.take_nil]
    · rename_i x d hsome
      rw [hsome] at hnext
      rw [hnext.1, List.take_succ_cons, ih]

theorem toList_eq (c : Cursor) : c.toList = c.due := by
  rw [toList, take_eq, due, List.take_take, Nat.min_self]

/-- What a cursor tells when it is asked `n` times: before each answer how many clauses are still to
come, and then the next one, if there is one.  Without one it stays where it is. -/
def answers : Nat → Cursor → List (Nat × Option Clause)
  | 0, _ => []
  | n + 1, c =>
    match c.next with
    | none => (c.remaining, none) :: answers n c
    | some (x, d) => (c.remaining, some x) :: answers n d

/-- A cursor with enough clauses ahead answers as the list of clauses due does: by its length, and by
its first clause, which is then taken off. -/
theorem answers_eq (h : c.remaining = c.due.length) (n : Nat) :
    c.answers n = (List.range n).map fun i => ((c.due.drop i).length, (c.due.drop i).head?) := by
  induction n generalizing c with
  | zero => rfl
  | succ n ih =>
    have hnext := next_eq c
    rw [answers, List.range_succ_eq_map, List.map_cons, List.map_map]
    split
    · rename_i hnone
      rw [hnone] at hnext
      rw [ih h, h, hnext]
      simp [Function.comp_def]
    · rename_i x d hsome
      rw [hsome] at hnext
      obtain ⟨hdue, hremaining⟩ := hnext
      have hd : d.remaining = d.due.length := by
        rw [hdue, List.length_cons] at h
        omega
      rw [ih hd, h, hdue]
      rfl

/-- A cursor over no more clauses than there are, in chunks of whatever sizes, passes exactly the
first ones of the concatenation.  Asked again and again, it reports before each answer how many of
them are still to come, and answers with the next of them until there is none left, and then with
none. -/
theorem start_answers (chunks : Array Chunk) (current : Chunk) {count : Nat}
    (hcount : count ≤ (chunks.toList.flatMap Chunk.toList ++ current.toList).length) :
    ∃ passed, passed = (chunks.toList.flatMap Chunk.toList ++ current.toList).take count ∧
      passed.length = count ∧ (start chunks current count).toList = passed ∧
      ∀ n, (start chunks current count).answers n =
        (List.range n).map fun i => ((passed.drop i).length, (passed.drop i).head?) := by
  have hlength : (start chunks current count).due.length = count := by
    rw [due_start, List.length_take, Nat.min_eq_left hcount]
  exact ⟨_, due_start chunks current count, hlength, toList_eq _, answers_eq hlength.symm⟩

/-- A literal of the first variable as a clause. -/
def firstUnit (p : Polarity) : Clause := ⟨[⟨default, p⟩], rfl⟩

/-- A chunk that is not full, and one that is empty. -/
def looseChunks : Array Chunk :=
  #[(Chunk.empty .standard).push (firstUnit .positive), Chunk.empty .standard]

/-- A chunk with two clauses. -/
def pairChunk : Chunk :=
  ((Chunk.empty .standard).push (firstUnit .negative)).push (firstUnit .positive)

/-- The theorem on a walk over chunks with room left and into the current chunk, which ends before
the last clause. -/
theorem start_answers_looseChunks :
    2 ≤ (looseChunks.toList.flatMap Chunk.toList ++ pairChunk.toList).length ∧
      (start looseChunks pairChunk 2).answers 4 =
        [(2, some (firstUnit .positive)), (1, some (firstUnit .negative)), (0, none), (0, none)] := by
  have hcount : 2 ≤ (looseChunks.toList.flatMap Chunk.toList ++ pairChunk.toList).length := by
    decide
  obtain ⟨passed, hpassed, -, -, hanswers⟩ := start_answers looseChunks pairChunk hcount
  refine ⟨hcount, ?_⟩
  rw [hanswers, hpassed]
  rfl

end BucketElimination.Cursor
