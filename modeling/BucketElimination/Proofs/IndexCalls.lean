import BucketElimination.Proofs.IndexedBuckets
import Mathlib.Data.Finset.Card
set_option autoImplicit false

/-!
# The index as a set

Whatever is put into an index, taken out and asked for, one call after the other, the index answers
as a set of lists of literals does, and its counter is the number of elements.  Signatures do not
show: a group may hold many lists, in an order that depends on what was taken out before, but it
holds just the elements with its signature, and a group that has lost its last list is not kept.

`Represents` relates an index to a set.  Each call keeps the two related, and what holds after each
call holds after a whole sequence of them.
-/

namespace BucketElimination.DuplicateIndex

/-! ## Calls -/

/-- What can be asked of an index. -/
inductive Call where
  | insert (c : Clause)
  | check (c : Clause) (insertIfAbsent : Bool)
  | erase (lits : List Lit)
  | contains (lits : List Lit)
  deriving DecidableEq

/-- The index after a call, and its answer. -/
def answer (index : DuplicateIndex) : Call → DuplicateIndex × Bool
  | .insert c => index.insert c
  | .check c insertIfAbsent => index.check c insertIfAbsent
  | .erase lits => index.erase lits
  | .contains lits => (index, index.contains lits)

/-- What a call does to a set of lists of literals, and what the set answers. -/
def Call.onSet (set : Finset (List Lit)) : Call → Finset (List Lit) × Bool
  | .insert c => (Insert.insert c.lits set, c.lits ∉ set)
  | .check c insertIfAbsent =>
    (if insertIfAbsent then Insert.insert c.lits set else set, c.lits ∈ set)
  | .erase lits => (set.erase lits, lits ∈ set)
  | .contains lits => (set, lits ∈ set)

/-- The state after a sequence of calls, and the answers to them. -/
def runCalls {σ : Type} (step : σ → Call → σ × Bool) : List Call → σ → σ × List Bool
  | [], s => (s, [])
  | call :: calls, s =>
    let (s, reply) := step s call
    let (s, replies) := runCalls step calls s
    (s, reply :: replies)

/-! ## Representing a set -/

/-- The groups of the index hold the elements of the set, each in the group of its signature, and
the index counts them. -/
structure Represents (set : Finset (List Lit)) (index : DuplicateIndex) : Prop where
  mem_group : ∀ s lits, (index.group s).contains lits = true ↔ s = signature lits ∧ lits ∈ set
  size_eq : index.size = set.card
  /-- No signature has a group without lists. -/
  isEmpty_eq : ∀ (s : Signature) (g : Group), index.groups[s]? = some g → g.isEmpty = false

section

variable {set : Finset (List Lit)} {index : DuplicateIndex}

theorem represents_empty : Represents ∅ empty where
  mem_group := by
    intro s lits
    simp [group, empty]
  size_eq := rfl
  isEmpty_eq := by
    intro s g hg
    simp [empty] at hg

theorem Represents.contains_eq (h : Represents set index) (lits : List Lit) :
    index.contains lits = decide (lits ∈ set) := by
  rw [Bool.eq_iff_iff, decide_eq_true_eq, contains, h.mem_group]
  exact and_iff_right rfl

theorem Represents.contains_iff (h : Represents set index) {lits : List Lit} :
    index.contains lits = true ↔ lits ∈ set := by
  rw [h.contains_eq, decide_eq_true_eq]

/-- A group to which a list was put is not empty, and the other groups are as they were. -/
theorem isEmpty_of_insert (h : ∀ (s : Signature) (g : Group), index.groups[s]? = some g → g.isEmpty = false)
    (c : Clause) (s : Signature) (g : Group)
    (hg : (index.insert c).1.groups[s]? = some g) : g.isEmpty = false := by
  cases hc : index.contains c.lits with
  | true =>
    rw [insert_of_contains hc] at hg
    exact h s g hg
  | false =>
    rw [insert_of_not_contains hc, Std.TreeMap.getElem?_insert] at hg
    split at hg
    · cases hg
      simp [Group.isEmpty, Group.push]
    · exact h s g hg

/-- A group that has lost its last list is given up, and the other groups are as they were. -/
theorem isEmpty_of_erase (h : ∀ (s : Signature) (g : Group), index.groups[s]? = some g → g.isEmpty = false)
    (lits : List Lit) (s : Signature) (g : Group)
    (hg : (index.erase lits).1.groups[s]? = some g) : g.isEmpty = false := by
  cases hlits : index.contains lits with
  | false =>
    rw [erase_of_not_contains hlits] at hg
    exact h s g hg
  | true =>
    obtain ⟨left, -, herase⟩ := erase_of_contains hlits
    rw [herase] at hg
    cases hleft : left.isEmpty with
    | true =>
      simp only [hleft, if_true, Std.TreeMap.getElem?_erase] at hg
      split at hg
      · cases hg
      · exact h s g hg
    | false =>
      simp only [hleft, Bool.false_eq_true, if_false, Std.TreeMap.getElem?_insert] at hg
      split at hg
      · cases hg
        exact hleft
      · exact h s g hg

theorem Represents.insert (h : Represents set index) (c : Clause) :
    Represents (Insert.insert c.lits set) (index.insert c).1 where
  mem_group := by
    intro s lits
    rw [contains_group_insert, Bool.or_eq_true, decide_eq_true_eq, h.mem_group, Finset.mem_insert]
    constructor
    · rintro (⟨rfl, rfl⟩ | ⟨hs, hmem⟩)
      · exact ⟨rfl, .inl rfl⟩
      · exact ⟨hs, .inr hmem⟩
    · rintro ⟨rfl, rfl | hmem⟩
      · exact .inl ⟨rfl, rfl⟩
      · exact .inr ⟨rfl, hmem⟩
  size_eq := by
    rw [size_insert, h.contains_eq, h.size_eq, Finset.card_insert_eq_ite]
    by_cases hmem : c.lits ∈ set
    · simp [hmem]
    · simp [hmem]
  isEmpty_eq := isEmpty_of_insert h.isEmpty_eq c

theorem Represents.erase (h : Represents set index) (gone : List Lit) :
    Represents (set.erase gone) (index.erase gone).1 where
  mem_group := by
    intro s lits
    rw [contains_group_erase, Bool.and_eq_true, decide_eq_true_eq, h.mem_group, Finset.mem_erase]
    constructor
    · rintro ⟨hne, rfl, hmem⟩
      exact ⟨rfl, fun he => hne ⟨he ▸ rfl, he⟩, hmem⟩
    · rintro ⟨rfl, hne, hmem⟩
      exact ⟨fun he => hne he.2, rfl, hmem⟩
  size_eq := by
    by_cases hmem : gone ∈ set
    · rw [size_erase_of_contains (h.contains_iff.2 hmem), h.size_eq, Finset.card_erase_of_mem hmem]
    · have hnot : index.contains gone = false := by rw [h.contains_eq, decide_eq_false hmem]
      rw [erase_of_not_contains hnot, Finset.erase_eq_of_notMem hmem, h.size_eq]
  isEmpty_eq := isEmpty_of_erase h.isEmpty_eq gone

/-! ## One call -/

/-- An index answers as the set that it represents, represents what the call makes of the set, and
is not touched by a call that leaves the set as it is. -/
theorem Represents.answer (h : Represents set index) (call : Call) :
    (index.answer call).2 = (call.onSet set).2 ∧
      Represents (call.onSet set).1 (index.answer call).1 ∧
      ((call.onSet set).1 = set → (index.answer call).1 = index) := by
  cases call with
  | insert c =>
    refine ⟨?_, h.insert c, ?_⟩
    · simp [DuplicateIndex.answer, Call.onSet, insert_snd, h.contains_eq]
    · intro hsame
      have hmem : c.lits ∈ set := Finset.insert_eq_self.1 hsame
      exact congrArg Prod.fst (insert_of_contains (h.contains_iff.2 hmem))
  | check c insertIfAbsent =>
    cases insertIfAbsent with
    | true =>
      refine ⟨?_, h.insert c, ?_⟩
      · simp [DuplicateIndex.answer, Call.onSet, check, insert_snd, h.contains_eq]
      · intro hsame
        have hmem : c.lits ∈ set := Finset.insert_eq_self.1 hsame
        exact congrArg Prod.fst (insert_of_contains (h.contains_iff.2 hmem))
    | false => exact ⟨h.contains_eq c.lits, h, fun _ => rfl⟩
  | erase lits =>
    refine ⟨?_, h.erase lits, ?_⟩
    · by_cases hmem : lits ∈ set
      · obtain ⟨left, -, herase⟩ := erase_of_contains (h.contains_iff.2 hmem)
        simp [DuplicateIndex.answer, Call.onSet, herase, hmem]
      · have hnot : index.contains lits = false := by rw [h.contains_eq, decide_eq_false hmem]
        simp [DuplicateIndex.answer, Call.onSet, erase_of_not_contains hnot, hmem]
    · intro hsame
      have hmem : lits ∉ set := Finset.erase_eq_self.1 hsame
      have hnot : index.contains lits = false := by rw [h.contains_eq, decide_eq_false hmem]
      exact congrArg Prod.fst (erase_of_not_contains hnot)
  | contains lits => exact ⟨h.contains_eq lits, h, fun _ => rfl⟩

/-! ## Sequences of calls -/

/-- An index and the set that it represents answer every sequence of calls alike, and stay
related. -/
theorem Represents.runCalls (h : Represents set index) (calls : List Call) :
    (DuplicateIndex.runCalls DuplicateIndex.answer calls index).2 =
        (DuplicateIndex.runCalls Call.onSet calls set).2 ∧
      Represents (DuplicateIndex.runCalls Call.onSet calls set).1
        (DuplicateIndex.runCalls DuplicateIndex.answer calls index).1 := by
  induction calls generalizing set index with
  | nil => exact ⟨rfl, h⟩
  | cons call calls ih =>
    obtain ⟨hreply, hnext, -⟩ := h.answer call
    obtain ⟨hreplies, hrest⟩ := ih hnext
    refine ⟨?_, hrest⟩
    simp only [DuplicateIndex.runCalls]
    rw [hreply, hreplies]

end

/-- Every sequence of calls to a new index is answered as a set of lists of literals answers it.
Afterwards the index counts the elements of that set, finds just them, and has each of them once, in
the group of its signature; no group is without lists; and any further call that leaves the set as
it is leaves the index as it is. -/
theorem runCalls_agrees_with_set (calls : List Call) :
    let index := (runCalls answer calls empty).1
    let set := (runCalls Call.onSet calls ∅).1
    (runCalls answer calls empty).2 = (runCalls Call.onSet calls ∅).2 ∧
      index.size = set.card ∧
      (∀ lits, index.contains lits = true ↔ lits ∈ set) ∧
      (∀ s, (index.group s).lists.Nodup) ∧
      (∀ s lits, lits ∈ (index.group s).lists ↔ s = signature lits ∧ lits ∈ set) ∧
      (∀ (s : Signature) (g : Group), index.groups[s]? = some g → g.lists ≠ []) ∧
      ∀ call : Call, (call.onSet set).1 = set → (index.answer call).1 = index := by
  intro index set
  obtain ⟨hreplies, hrepresents⟩ := represents_empty.runCalls calls
  refine ⟨hreplies, hrepresents.size_eq, fun lits => hrepresents.contains_iff,
    fun s => (index.group s).nodup, ?_, ?_, fun call => (hrepresents.answer call).2.2⟩
  · intro s lits
    rw [← Group.contains_iff]
    exact hrepresents.mem_group s lits
  · intro s g hg hnil
    have hfull := hrepresents.isEmpty_eq s g hg
    rw [Group.isEmpty, hnil] at hfull
    cases hfull

/-- The clauses 1 4 and 2 3 share a signature, and the index tells them apart. -/
example :
    let outer : Clause := ⟨[1, 4].filterMap Lit.ofInt?, by decide⟩
    let inner : Clause := ⟨[2, 3].filterMap Lit.ofInt?, by decide⟩
    signature outer.lits = signature inner.lits ∧
      (runCalls answer
        [.insert outer, .contains inner.lits, .insert inner, .erase outer.lits, .check outer false,
          .check inner true] empty).2 =
        [true, false, true, true, false, true] := by
  decide +kernel

end BucketElimination.DuplicateIndex
