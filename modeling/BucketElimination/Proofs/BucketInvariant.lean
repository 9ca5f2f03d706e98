import BucketElimination.Proofs.ChunkedSides
import BucketElimination.Proofs.Quantification
import BucketElimination.Storage.Bucket
set_option autoImplicit false

/-!
# The invariant of buckets

Every bucket that is made by storing, removing and uniting is well formed: both sides are, all
clauses are filed under their pivot, none is stored twice, and the index knows exactly the stored
clauses.  Uniting two buckets adds to each side the clauses that it lacks and counts the others.

Buckets of one variable can be united even if their orders differ.  Then the pivots need not fit, but
each clause still has the literal of its side; `Sided` is what is left of the invariant.
-/

namespace BucketElimination

/-! ## The index counts its clauses -/

namespace DuplicateIndex

theorem size_insert (index : DuplicateIndex) (c : Clause) :
    (index.insert c).1.size = index.size + if index.contains c.lits then 0 else 1 := by
  cases h : index.contains c.lits with
  | true => simp [insert_of_contains h]
  | false => simp [insert_of_not_contains h]

theorem size_erase_of_contains {index : DuplicateIndex} {lits : List Lit}
    (h : index.contains lits = true) : (index.erase lits).1.size = index.size - 1 := by
  obtain ⟨left, -, herase⟩ := erase_of_contains h
  rw [herase]

end DuplicateIndex

namespace Bucket

/-! ## Taking over clauses -/

namespace Intake

/-- From `i` to `j` the clauses `xs` were taken over: those that the index did not know are stored
at the end of the side and known from then on, the others are counted. -/
structure Took (xs : List Clause) (i j : Intake) : Prop where
  wellFormed : i.side.WellFormed → j.side.WellFormed
  stored : ∃ kept, j.side.toList = i.side.toList ++ kept ∧ kept.Nodup ∧
    (∀ c, c ∈ kept ↔ c ∈ xs ∧ i.index.contains c.lits = false) ∧
    j.dropped + kept.length = i.dropped + xs.length ∧ j.index.size = i.index.size + kept.length
  contains_iff : ∀ lits, j.index.contains lits = true ↔
    i.index.contains lits = true ∨ ∃ c ∈ xs, c.lits = lits

theorem Took.refl (i : Intake) : Took [] i i where
  wellFormed := id
  stored := ⟨[], by simp⟩
  contains_iff := by simp

/-- Taking over some clauses and then others is taking over both. -/
theorem Took.trans {xs ys : List Clause} {i j k : Intake} (h : Took xs i j) (h' : Took ys j k) :
    Took (xs ++ ys) i k where
  wellFormed := h'.wellFormed ∘ h.wellFormed
  stored := by
    obtain ⟨kept, hside, hnodup, hmem, hdropped, hsize⟩ := h.stored
    obtain ⟨kept', hside', hnodup', hmem', hdropped', hsize'⟩ := h'.stored
    have hnew : ∀ c, j.index.contains c.lits = false ↔
        i.index.contains c.lits = false ∧ c ∉ xs := by
      intro c
      have := h.contains_iff c.lits
      have heq : (∃ d ∈ xs, d.lits = c.lits) ↔ c ∈ xs :=
        ⟨fun ⟨d, hd, he⟩ => Clause.ext_lits he ▸ hd, fun hc => ⟨c, hc, rfl⟩⟩
      rw [heq] at this
      rw [← Bool.not_eq_true, this, not_or, Bool.not_eq_true]
    refine ⟨kept ++ kept', by rw [hside', hside, List.append_assoc], ?_, fun c => ?_, ?_, ?_⟩
    · refine List.nodup_append.2 ⟨hnodup, hnodup', fun c hc d hd hcd => ?_⟩
      subst hcd
      exact ((hnew c).1 ((hmem' c).1 hd).2).2 ((hmem c).1 hc).1
    · rw [List.mem_append, List.mem_append, hmem, hmem', hnew]
      constructor
      · rintro (⟨hx, hi⟩ | ⟨hy, hi, -⟩)
        · exact ⟨.inl hx, hi⟩
        · exact ⟨.inr hy, hi⟩
      · rintro ⟨hx | hy, hi⟩
        · exact .inl ⟨hx, hi⟩
        · by_cases hx : c ∈ xs
          · exact .inl ⟨hx, hi⟩
          · exact .inr ⟨hy, hi, hx⟩
    · simp only [List.length_append]
      omega
    · rw [hsize', hsize, List.length_append, Nat.add_assoc]
  contains_iff := by
    intro lits
    rw [h'.contains_iff, h.contains_iff, or_assoc]
    simp only [List.mem_append, or_and_right, exists_or]

/-- Only the set and the number of the clauses matter. -/
theorem Took.perm {xs ys : List Clause} {i j : Intake} (h : Took xs i j) (hp : xs.Perm ys) :
    Took ys i j where
  wellFormed := h.wellFormed
  stored := by
    obtain ⟨kept, hside, hnodup, hmem, hdropped, hsize⟩ := h.stored
    exact ⟨kept, hside, hnodup, fun c => by rw [hmem, hp.mem_iff], hp.length_eq ▸ hdropped, hsize⟩
  contains_iff := by
    intro lits
    rw [h.contains_iff]
    simp only [hp.mem_iff]

theorem take_of_contains {i : Intake} {c : Clause} (h : i.index.contains c.lits = true) :
    i.take c = { i with dropped := i.dropped + 1 } := by
  obtain ⟨index, side, dropped⟩ := i
  rw [take, DuplicateIndex.insert_of_contains h]

theorem take_of_not_contains {i : Intake} {c : Clause} (h : i.index.contains c.lits = false) :
    i.take c = ⟨(i.index.insert c).1, i.side.push c, i.dropped⟩ := by
  obtain ⟨index, side, dropped⟩ := i
  rw [take, DuplicateIndex.insert_of_not_contains h]

theorem took_take (i : Intake) (c : Clause) : Took [c] i (i.take c) := by
  cases hc : i.index.contains c.lits with
  | true =>
    rw [take_of_contains hc]
    refine ⟨id, ⟨[], by simp, by simp, fun d => ?_, by simp, by simp⟩, fun lits => ?_⟩
    · simp only [List.not_mem_nil, List.mem_singleton, false_iff, not_and]
      rintro rfl
      simp [hc]
    · simp only [List.mem_singleton, exists_eq_left]
      exact ⟨.inl, fun h => h.elim id (fun he => he ▸ hc)⟩
  | false =>
    have hsize := DuplicateIndex.size_insert i.index c
    rw [hc] at hsize
    rw [take_of_not_contains hc]
    refine ⟨fun h => h.push c, ⟨[c], Side.toList_push _ _, by simp, fun d => ?_, by simp, hsize⟩,
      fun lits => ?_⟩
    · simp only [List.mem_singleton]
      exact ⟨fun h => ⟨h, h ▸ hc⟩, fun h => h.1⟩
    · rw [DuplicateIndex.contains_insert, Bool.or_eq_true, decide_eq_true_eq, or_comm]
      simp only [List.mem_singleton, exists_eq_left, eq_comm (a := c.lits)]

/-- Filling up the current chunk takes over the last clauses of the source, all of them if the
source is used up. -/
theorem took_fill (i : Intake) {source : Side} (h : source.WellFormed) :
    match i.fill source with
    | (j, none) => Took source.toList i j
    | (j, some rest) => rest.WellFormed ∧ ∃ taken, source.toList = rest.toList ++ taken ∧
        Took taken i j := by
  fun_induction fill i source with
  | case1 i source hfull => exact ⟨h, [], by simp, Took.refl i⟩
  | case2 i source hfull hpop =>
    rw [h.pop?_eq_none_iff.1 hpop]
    exact Took.refl i
  | case3 i source hfull c rest hpop ih =>
    have hlist := Side.toList_pop? hpop
    have hrest := ih (h.pop? hpop)
    have htake := took_take i c
    split
    · rename_i j hfill
      rw [hfill] at hrest
      rw [hlist]
      exact (htake.trans hrest).perm List.perm_append_comm
    · rename_i j left hfill
      rw [hfill] at hrest
      obtain ⟨hleft, taken, htaken, htook⟩ := hrest
      refine ⟨hleft, taken ++ [c], ?_, (htake.trans htook).perm List.perm_append_comm⟩
      rw [hlist, htaken, List.append_assoc]

theorem took_foldl_take (i : Intake) (xs : List Clause) : Took xs i (xs.foldl take i) := by
  induction xs generalizing i with
  | nil => exact Took.refl i
  | cons c xs ih => exact (took_take i c).trans (ih (i.take c))

/-- Keeping the new clauses of a list is taking them over one by one. -/
theorem foldl_take_eq (i : Intake) (xs : List Clause) :
    (xs.foldl take i).index = (keepNew i.index xs).1 ∧
      (xs.foldl take i).side.toList = i.side.toList ++ (keepNew i.index xs).2 := by
  induction xs generalizing i with
  | nil => simp [keepNew]
  | cons c xs ih =>
    rw [List.foldl_cons, keepNew]
    cases hc : i.index.contains c.lits with
    | true =>
      rw [take_of_contains hc, DuplicateIndex.insert_of_contains hc]
      exact ih _
    | false =>
      obtain ⟨hindex, hside⟩ := ih (i.take c)
      have hnew : (i.index.insert c).2 = true := by rw [DuplicateIndex.insert_snd, hc]; rfl
      rw [take_of_not_contains hc] at hindex hside ⊢
      rcases hins : i.index.insert c with ⟨index, new⟩
      rw [hins] at hindex hside hnew
      cases hnew
      simp only at hindex hside ⊢
      exact ⟨hindex, by rw [hside, Side.toList_push, List.append_assoc]; rfl⟩

/-- A chunk is taken over without its duplicates. -/
theorem took_takeChunk (i : Intake) {chunk : Chunk} (hcap : chunk.size ≤ chunk.capacity.val) :
    Took chunk.toList i (i.takeChunk chunk) := by
  have htook := took_foldl_take i chunk.toList
  obtain ⟨hindex, hside⟩ := foldl_take_eq i chunk.toList
  obtain ⟨kept, hkept, hnodup, hmem, hdropped, hsize⟩ := htook.stored
  have hcontains := htook.contains_iff
  obtain rfl : kept = (keepNew i.index chunk.toList).2 :=
    List.append_cancel_left (hkept.symm.trans hside)
  rw [hindex] at hcontains hsize
  unfold takeChunk
  rcases hnew : keepNew i.index chunk.toList with ⟨index, kept⟩
  rw [hnew] at hnodup hmem hsize hcontains
  have hle : kept.length ≤ chunk.size := by
    rw [← Chunk.length_toList]
    exact hnodup.length_le_of_subset fun c hc => ((hmem c).1 hc).1
  have hcount : i.dropped + (chunk.size - kept.length) + kept.length =
      i.dropped + chunk.toList.length := by
    rw [Chunk.length_toList]
    omega
  simp only [Chunk.size, List.size_toArray]
  split
  · rename_i hne
    refine ⟨fun h => h.splice hne ?_, ⟨kept, ?_, hnodup, hmem, hcount, hsize⟩, hcontains⟩
    · simp only [Chunk.size, List.size_toArray]
      exact Nat.le_trans hle hcap
    · rw [Side.toList_splice]
      simp [Chunk.toList]
  · rename_i hempty
    obtain rfl : kept = [] := by simpa [Chunk.isEmpty] using hempty
    exact ⟨id, ⟨[], by simp, hnodup, hmem, hcount, hsize⟩, hcontains⟩

theorem took_foldl_takeChunk (i : Intake) {chunks : List Chunk}
    (hcap : ∀ c ∈ chunks, c.size ≤ c.capacity.val) :
    Took (chunks.flatMap Chunk.toList) i (chunks.foldl takeChunk i) := by
  induction chunks generalizing i with
  | nil => exact Took.refl i
  | cons chunk chunks ih =>
    rw [List.flatMap_cons, List.foldl_cons]
    exact (took_takeChunk i (hcap chunk List.mem_cons_self)).trans
      (ih _ fun c hc => hcap c (List.mem_cons_of_mem _ hc))

/-- Taking over a side is taking over its clauses. -/
theorem took_takeSide (i : Intake) {source : Side} (h : source.WellFormed) :
    Took source.toList i (i.takeSide source) := by
  have hfill := took_fill i h
  unfold takeSide
  rcases hrun : i.fill source with ⟨j, _ | rest⟩
  · rw [hrun] at hfill
    exact hfill
  · rw [hrun] at hfill
    obtain ⟨hrest, taken, hlist, htook⟩ := hfill
    rw [hlist]
    exact (htook.trans (took_foldl_takeChunk j hrest.size_le_capacity)).perm
      List.perm_append_comm

end Intake

/-! ## Sided buckets -/

/-- What holds of every bucket that was made by storing, removing and uniting, also if the united
buckets had different orders. -/
structure Sided (b : Bucket) : Prop where
  side : ∀ p, (b.side p).WellFormed
  nodup : ∀ p, (b.side p).toList.Nodup
  /-- Each clause has the literal of its side. -/
  mem_lits : ∀ p, ∀ c ∈ (b.side p).toList, (⟨b.var, p⟩ : Lit) ∈ c.lits
  /-- The index knows the stored clauses and no others. -/
  indexed : ∀ lits, b.index.contains lits = true ↔ ∃ p, ∃ c ∈ (b.side p).toList, c.lits = lits
  index_size : b.index.size = b.size .positive + b.size .negative

section

variable {b b' : Bucket} {p q : Polarity} {c : Clause}

/-- A clause belongs on one side at most, for it has one literal of the variable. -/
theorem Sided.side_unique (h : b.Sided) (hc : c ∈ (b.side p).toList)
    (hq : (⟨b.var, q⟩ : Lit) ∈ c.lits) : p = q := by
  have hlit := eq_of_var_eq_of_isCanonical c.canonical (h.mem_lits p c hc) hq rfl
  cases hlit
  rfl

theorem Sided.clauses_eq (h : b.Sided) (p : Polarity) : b.clauses p = (b.side p).toList :=
  (h.side p).walk_eq

theorem Sided.size_eq (h : b.Sided) (p : Polarity) : b.size p = (b.clauses p).length := by
  rw [h.clauses_eq]
  exact (h.side p).size_eq

/-- A clause that belongs on a side is known to the index exactly if that side has it. -/
theorem Sided.contains_iff (h : b.Sided) (hp : (⟨b.var, p⟩ : Lit) ∈ c.lits) :
    b.index.contains c.lits = true ↔ c ∈ b.clauses p := by
  rw [h.indexed, h.clauses_eq]
  constructor
  · rintro ⟨q, d, hd, hlits⟩
    obtain rfl := Clause.ext_lits hlits
    exact h.side_unique hd hp ▸ hd
  · intro hc
    exact ⟨p, c, hc, rfl⟩

theorem sided_empty (v : Var) (order : Order) (capacity : Capacity) :
    (empty v order capacity).Sided where
  side := fun p => by cases p <;> exact Side.wellFormed_empty capacity
  nodup := fun p => by cases p <;> exact List.nodup_nil
  mem_lits := fun p c hc => by cases p <;> cases hc
  indexed := by
    intro lits
    simp only [empty, DuplicateIndex.contains_empty, Bool.false_eq_true, false_iff]
    rintro ⟨p, c, hc, -⟩
    cases p <;> cases hc
  index_size := rfl

end

/-! ## Growing a side -/

/-- A bucket stays sided when one of its sides grows by new clauses that belong there and the index
comes to know them. -/
theorem Sided.grow {b b' : Bucket} (h : b.Sided) (p : Polarity) (kept : List Clause)
    (hvar : b'.var = b.var) (hother : ∀ q, q ≠ p → b'.side q = b.side q)
    (hside : (b'.side p).WellFormed) (hlist : (b'.side p).toList = (b.side p).toList ++ kept)
    (hnodup : kept.Nodup)
    (hkept : ∀ c ∈ kept, (⟨b.var, p⟩ : Lit) ∈ c.lits ∧ b.index.contains c.lits = false)
    (hindex : ∀ lits, b'.index.contains lits = true ↔
      b.index.contains lits = true ∨ ∃ c ∈ kept, c.lits = lits)
    (hsize : b'.index.size = b.index.size + kept.length) : b'.Sided where
  side := by
    intro q
    by_cases hq : q = p
    · exact hq ▸ hside
    · exact hother q hq ▸ h.side q
  nodup := by
    intro q
    by_cases hq : q = p
    · subst hq
      rw [hlist]
      refine List.nodup_append.2 ⟨h.nodup q, hnodup, fun c hc d hd hcd => ?_⟩
      subst hcd
      have hknown := (h.indexed c.lits).2 ⟨q, c, hc, rfl⟩
      rw [(hkept c hd).2] at hknown
      cases hknown
    · exact hother q hq ▸ h.nodup q
  mem_lits := by
    intro q
    rw [hvar]
    by_cases hq : q = p
    · subst hq
      rw [hlist]
      intro c hc
      rcases List.mem_append.1 hc with hc | hc
      · exact h.mem_lits q c hc
      · exact (hkept c hc).1
    · exact hother q hq ▸ h.mem_lits q
  indexed := by
    intro lits
    rw [hindex, h.indexed]
    constructor
    · rintro (⟨q, c, hc, hlits⟩ | ⟨c, hc, hlits⟩)
      · by_cases hq : q = p
        · exact ⟨p, c, hlist ▸ List.mem_append_left _ (hq ▸ hc), hlits⟩
        · exact ⟨q, c, (hother q hq).symm ▸ hc, hlits⟩
      · exact ⟨p, c, hlist ▸ List.mem_append_right _ hc, hlits⟩
    · rintro ⟨q, c, hc, hlits⟩
      by_cases hq : q = p
      · subst hq
        rw [hlist] at hc
        rcases List.mem_append.1 hc with hc | hc
        · exact .inl ⟨q, c, hc, hlits⟩
        · exact .inr ⟨c, hc, hlits⟩
      · exact .inl ⟨q, c, hother q hq ▸ hc, hlits⟩
  index_size := by
    have hp : b'.size p = b.size p + kept.length := by
      rw [size, size, hside.size_eq, hlist, List.length_append, (h.side p).size_eq]
    have hq : ∀ q, q ≠ p → b'.size q = b.size q := fun q hq => by rw [size, size, hother q hq]
    rw [hsize, h.index_size]
    cases p with
    | positive => rw [hp, hq .negative (by decide)]; omega
    | negative => rw [hp, hq .positive (by decide)]; omega

/-! ## Storing a clause -/

theorem add_of_pivot {b : Bucket} {c : Clause} {p : Polarity}
    (hp : b.order.pivot? c.lits = some ⟨b.var, p⟩) : b.add c p = .ok (b.store c ⟨b.var, p⟩) := by
  rw [add, pivotOn, hp]
  simp

theorem store_of_contains {b : Bucket} {c : Clause} (pivot : Lit)
    (h : b.index.contains c.lits = true) : b.store c pivot = (b, false) := by
  cases b
  rw [store, DuplicateIndex.insert_of_contains h]

theorem store_of_not_contains {b : Bucket} {c : Clause} (pivot : Lit)
    (h : b.index.contains c.lits = false) :
    b.store c pivot =
      (({ b with key := some pivot, index := (b.index.insert c).1 } : Bucket).setSide pivot.polarity
        ((b.side pivot.polarity).push c), true) := by
  cases b
  rw [store, DuplicateIndex.insert_of_not_contains h]
  obtain ⟨v, p⟩ := pivot
  cases p <;> rfl

/-- What storing a clause on the side of its literal does: a clause that the side lacks comes last
on it, any other changes nothing. -/
theorem Sided.store {b : Bucket} (h : b.Sided) {c : Clause} {p : Polarity}
    (hp : (⟨b.var, p⟩ : Lit) ∈ c.lits) :
    (b.store c ⟨b.var, p⟩).1.Sided ∧ (b.store c ⟨b.var, p⟩).1.var = b.var ∧
      (b.store c ⟨b.var, p⟩).1.order = b.order ∧
      (b.store c ⟨b.var, p⟩).2 = decide (c ∉ b.clauses p) ∧
      (b.store c ⟨b.var, p⟩).1.clauses p =
        b.clauses p ++ (if c ∈ b.clauses p then [] else [c]) ∧
      ∀ q, q ≠ p → (b.store c ⟨b.var, p⟩).1.side q = b.side q := by
  have hiff := h.contains_iff hp
  cases hc : b.index.contains c.lits with
  | true =>
    rw [hc] at hiff
    have hmem : c ∈ b.clauses p := hiff.1 rfl
    rw [store_of_contains _ hc]
    simp [h, hmem]
  | false =>
    rw [hc] at hiff
    have hmem : c ∉ b.clauses p := fun hm => Bool.false_ne_true (hiff.2 hm)
    have hsize := DuplicateIndex.size_insert b.index c
    rw [hc] at hsize
    rw [store_of_not_contains _ hc]
    have hother : ∀ q, q ≠ p →
        ((({ b with key := some ⟨b.var, p⟩, index := (b.index.insert c).1 } : Bucket).setSide p
          ((b.side p).push c)).side q) = b.side q := by
      intro q hq
      rw [side_setSide_of_ne _ hq]
      cases q <;> rfl
    have hsided : (({ b with
        key := some ⟨b.var, p⟩, index := (b.index.insert c).1 } : Bucket).setSide p
        ((b.side p).push c)).Sided := by
      refine h.grow p [c] (by simp) hother ?_ ?_ (by simp) ?_ ?_ ?_
      · rw [side_setSide_self]
        exact (h.side p).push c
      · rw [side_setSide_self, Side.toList_push]
      · intro d hd
        rw [List.mem_singleton.1 hd]
        exact ⟨hp, hc⟩
      · intro lits
        rw [index_setSide, DuplicateIndex.contains_insert, Bool.or_eq_true, decide_eq_true_eq,
          or_comm]
        simp [eq_comm (a := c.lits)]
      · rw [index_setSide]
        exact hsize
    refine ⟨hsided, by simp, by simp, by simp [hmem], ?_, hother⟩
    rw [hsided.clauses_eq, side_setSide_self, Side.toList_push, if_neg hmem, h.clauses_eq]

/-! ## Well formed buckets -/

/-- What holds of every bucket that was made by storing, removing and uniting. -/
structure WellFormed (b : Bucket) : Prop where
  side : ∀ p, (b.side p).WellFormed
  nodup : ∀ p, (b.side p).toList.Nodup
  /-- Each clause is on the side of its pivot. -/
  filed : ∀ p, PivotsOn b.order b.var p (b.side p).toList
  /-- The index knows the stored clauses and no others. -/
  indexed : ∀ lits, b.index.contains lits = true ↔ ∃ p, ∃ c ∈ (b.side p).toList, c.lits = lits
  index_size : b.index.size = b.size .positive + b.size .negative

theorem WellFormed.sided {b : Bucket} (h : b.WellFormed) : b.Sided :=
  ⟨h.side, h.nodup, fun p c hc => Order.pivot_mem (h.filed p c hc), h.indexed, h.index_size⟩

theorem Sided.wellFormed {b : Bucket} (h : b.Sided)
    (hfiled : ∀ p, PivotsOn b.order b.var p (b.clauses p)) : b.WellFormed :=
  ⟨h.side, h.nodup, fun p => h.clauses_eq p ▸ hfiled p, h.indexed, h.index_size⟩

theorem WellFormed.clauses_eq {b : Bucket} (h : b.WellFormed) (p : Polarity) :
    b.clauses p = (b.side p).toList := h.sided.clauses_eq p

theorem WellFormed.size_eq {b : Bucket} (h : b.WellFormed) (p : Polarity) :
    b.size p = (b.clauses p).length := h.sided.size_eq p

theorem WellFormed.contains_iff {b : Bucket} (h : b.WellFormed) {p : Polarity} {c : Clause}
    (hp : b.order.pivot? c.lits = some ⟨b.var, p⟩) :
    b.index.contains c.lits = true ↔ c ∈ b.clauses p := h.sided.contains_iff (Order.pivot_mem hp)

theorem wellFormed_empty (v : Var) (order : Order) (capacity : Capacity) :
    (empty v order capacity).WellFormed :=
  (sided_empty v order capacity).wellFormed fun p c hc => by cases p <;> cases hc

/-! ## All clauses of a bucket -/

theorem allClauses_eq (b : Bucket) : b.allClauses = b.clauses .positive ++ b.clauses .negative := by
  simp [allClauses, Polarity.all]

theorem mem_allClauses {b : Bucket} {c : Clause} : c ∈ b.allClauses ↔ ∃ p, c ∈ b.clauses p := by
  rw [allClauses_eq, List.mem_append]
  constructor
  · rintro (h | h)
    · exact ⟨_, h⟩
    · exact ⟨_, h⟩
  · rintro ⟨p, h⟩
    cases p
    · exact .inl h
    · exact .inr h

/-- No clause is stored twice. -/
theorem WellFormed.nodup_allClauses {b : Bucket} (h : b.WellFormed) : b.allClauses.Nodup := by
  rw [allClauses_eq, h.clauses_eq, h.clauses_eq]
  refine List.nodup_append.2 ⟨h.nodup _, h.nodup _, fun c hc d hd hcd => ?_⟩
  subst hcd
  exact absurd (h.sided.side_unique hc (h.sided.mem_lits _ c hd)) (by decide)

theorem WellFormed.pivot_of_mem {b : Bucket} (h : b.WellFormed) {p : Polarity} {c : Clause}
    (hc : c ∈ b.clauses p) : b.order.pivot? c.lits = some ⟨b.var, p⟩ :=
  h.filed p c (h.clauses_eq p ▸ hc)

theorem WellFormed.pivotsOn {b : Bucket} (h : b.WellFormed) (p : Polarity) :
    PivotsOn b.order b.var p (b.clauses p) := fun _ hc => h.pivot_of_mem hc

/-- The side of a clause of a well formed bucket is that of its pivot. -/
theorem WellFormed.mem_clauses_iff {b : Bucket} (h : b.WellFormed) {p : Polarity} {c : Clause} :
    c ∈ b.clauses p ↔ c ∈ b.allClauses ∧ b.order.pivot? c.lits = some ⟨b.var, p⟩ := by
  constructor
  · intro hc
    exact ⟨mem_allClauses.2 ⟨p, hc⟩, h.pivot_of_mem hc⟩
  · intro hc
    obtain ⟨q, hq⟩ := mem_allClauses.1 hc.1
    have hpivot := h.pivot_of_mem hq
    rw [hc.2] at hpivot
    cases hpivot
    exact hq

theorem WellFormed.var_eq_of_pivot {b : Bucket} (h : b.WellFormed) {c : Clause}
    (hc : c ∈ b.allClauses) {l : Lit} (hl : b.order.pivot? c.lits = some l) : l.var = b.var := by
  obtain ⟨p, hp⟩ := mem_allClauses.1 hc
  rw [h.pivot_of_mem hp] at hl
  cases hl
  rfl

/-! ## Storing a clause in a well formed bucket -/

/-- A bucket stays well formed when one of its sides is changed and has no clauses but those it had
before and others that belong there. -/
theorem WellFormed.of_sided {b b' : Bucket} (h : b.WellFormed) (h' : b'.Sided)
    (hvar : b'.var = b.var) (horder : b'.order = b.order) {p : Polarity}
    (hother : ∀ q, q ≠ p → b'.side q = b.side q)
    (hclauses : ∀ c ∈ b'.clauses p,
      c ∈ b.clauses p ∨ b.order.pivot? c.lits = some ⟨b.var, p⟩) : b'.WellFormed := by
  refine h'.wellFormed fun q c hc => ?_
  rw [hvar, horder]
  by_cases hq : q = p
  · subst hq
    exact (hclauses c hc).elim h.pivot_of_mem id
  · rw [clauses, hother q hq] at hc
    exact h.pivot_of_mem hc

/-- What storing a clause with its pivot does: a clause that the side lacks comes last on it, any
other changes nothing. -/
theorem WellFormed.store {b : Bucket} (h : b.WellFormed) {c : Clause} {p : Polarity}
    (hp : b.order.pivot? c.lits = some ⟨b.var, p⟩) :
    (b.store c ⟨b.var, p⟩).1.WellFormed ∧ (b.store c ⟨b.var, p⟩).1.var = b.var ∧
      (b.store c ⟨b.var, p⟩).1.order = b.order ∧
      (b.store c ⟨b.var, p⟩).2 = decide (c ∉ b.clauses p) ∧
      (b.store c ⟨b.var, p⟩).1.clauses p =
        b.clauses p ++ (if c ∈ b.clauses p then [] else [c]) ∧
      ∀ q, q ≠ p → (b.store c ⟨b.var, p⟩).1.side q = b.side q := by
  obtain ⟨hsided, hvar, horder, hnew, hclauses, hother⟩ := h.sided.store (Order.pivot_mem hp)
  refine ⟨h.of_sided hsided hvar horder hother fun d hd => ?_, hvar, horder, hnew, hclauses, hother⟩
  rw [hclauses, List.mem_append] at hd
  rcases hd with hd | hd
  · exact .inl hd
  · split at hd
    · cases hd
    · exact .inr (List.mem_singleton.1 hd ▸ hp)

/-- Storing a clause adds it to all clauses of the bucket unless it is there. -/
theorem WellFormed.allClauses_store {b : Bucket} (h : b.WellFormed) {c : Clause} {p : Polarity}
    (hp : b.order.pivot? c.lits = some ⟨b.var, p⟩) :
    (∀ d, d ∈ (b.store c ⟨b.var, p⟩).1.allClauses ↔ d ∈ b.allClauses ∨ d = c) ∧
      (b.store c ⟨b.var, p⟩).1.allClauses.length =
        b.allClauses.length + if (b.store c ⟨b.var, p⟩).2 then 1 else 0 := by
  obtain ⟨-, -, -, hnew, hclauses, hother⟩ := h.store hp
  generalize b.store c ⟨b.var, p⟩ = stored at *
  have hside : ∀ q, q ≠ p → stored.1.clauses q = b.clauses q := by
    intro q hq
    rw [clauses, clauses, hother q hq]
  constructor
  · intro d
    rw [mem_allClauses, mem_allClauses]
    constructor
    · rintro ⟨q, hd⟩
      by_cases hq : q = p
      · subst hq
        rw [hclauses] at hd
        rcases List.mem_append.1 hd with hd | hd
        · exact .inl ⟨q, hd⟩
        · split at hd
          · cases hd
          · exact .inr (List.mem_singleton.1 hd)
      · exact .inl ⟨q, hside q hq ▸ hd⟩
    · rintro (⟨q, hd⟩ | rfl)
      · by_cases hq : q = p
        · exact ⟨p, hclauses ▸ List.mem_append_left _ (hq ▸ hd)⟩
        · exact ⟨q, (hside q hq).symm ▸ hd⟩
      · refine ⟨p, hclauses ▸ ?_⟩
        by_cases hd : d ∈ b.clauses p <;> simp [hd]
  · have hlength : (stored.1.clauses p).length =
        (b.clauses p).length + if stored.2 then 1 else 0 := by
      rw [hclauses, hnew, List.length_append]
      by_cases hc : c ∈ b.clauses p <;> simp [hc]
    rw [allClauses_eq, allClauses_eq, List.length_append, List.length_append]
    cases p with
    | positive => rw [hlength, hside .negative (by decide)]; omega
    | negative => rw [hlength, hside .positive (by decide)]; omega

end Bucket

end BucketElimination
