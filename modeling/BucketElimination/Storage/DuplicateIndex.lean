import Std.Data.TreeMap
import BucketElimination.Logic.Clause
set_option autoImplicit false

/-!
# Storage: finding duplicates

The index is the set of the clauses stored in a bucket, each known by its list of literals.  Lists
are grouped by a signature that is cheap to compute; different lists often share one, so a group is
searched from its beginning.
-/

namespace BucketElimination

/-- A signed 64-bit word that equal clauses share. -/
abbrev Signature := Int64

/-- What a literal with the integer `n` adds to a signature. -/
def Signature.term (n : Int) : Signature := Int64.ofInt (3 * n + 5 * (n - 1) + 1)

/-- The sum over the literals, wrapping around at 64 bits. -/
def signature (lits : List Lit) : Signature :=
  lits.foldl (fun sum l => sum + Signature.term l.toInt) 0

/-! ## Groups -/

/-- A list without the element at a position, in whose place the last element comes. -/
def swapRemove {α : Type} (xs : List α) (i : Nat) : List α :=
  match xs.getLast? with
  | none => []
  | some last => (xs.set i last).dropLast

/-- The removed element and the others are the whole list. -/
theorem swapRemove_perm {α : Type} {xs : List α} {i : Nat} {x : α} (h : xs[i]? = some x) :
    (x :: swapRemove xs i).Perm xs := by
  obtain ⟨front, back, rfl, rfl⟩ : ∃ front back, xs = front ++ x :: back ∧ i = front.length := by
    obtain ⟨hlt, hx⟩ := List.getElem?_eq_some_iff.1 h
    refine ⟨xs.take i, xs.drop (i + 1), ?_, (List.length_take_of_le (Nat.le_of_lt hlt)).symm⟩
    rw [← hx, ← List.drop_eq_getElem_cons hlt, List.take_append_drop]
  rcases List.eq_nil_or_concat back with rfl | ⟨middle, last, rfl⟩
  · have hremoved : swapRemove (front ++ [x]) front.length = front := by simp [swapRemove]
    rw [hremoved]
    exact (List.perm_append_singleton x front).symm
  · have hremoved : swapRemove (front ++ x :: middle.concat last) front.length =
        front ++ last :: middle := by
      have hlast : (front ++ x :: middle.concat last).getLast? = some last := by
        simp [List.getLast?_cons]
      rw [swapRemove, hlast]
      simp only [List.concat_eq_append, List.set_append_right _ _ (Nat.le_refl _), Nat.sub_self,
        List.set_cons_zero]
      rw [← List.cons_append, ← List.append_assoc, List.dropLast_concat]
    rw [hremoved, List.concat_eq_append]
    refine List.Perm.trans ?_ List.perm_middle.symm
    exact ((List.perm_append_singleton last middle).symm.append_left front).cons x

theorem nodup_swapRemove {α : Type} {xs : List α} (h : xs.Nodup) (i : Nat) :
    (swapRemove xs i).Nodup := by
  cases hi : xs[i]? with
  | some x => exact (List.nodup_cons.1 ((swapRemove_perm hi).nodup_iff.2 h)).2
  | none =>
    unfold swapRemove
    split
    · exact List.nodup_nil
    · rw [List.set_eq_of_length_le (List.getElem?_eq_none_iff.1 hi)]
      exact h.sublist (List.dropLast_sublist xs)

/-- Lists of literals that share a signature, each once. -/
structure Group where
  lists : List (List Lit)
  nodup : lists.Nodup

namespace Group

/-- The group without lists. -/
def empty : Group := ⟨[], List.nodup_nil⟩

/-- The list is in the group. -/
def contains (g : Group) (lits : List Lit) : Bool := g.lists.contains lits

/-- The group has no list. -/
def isEmpty (g : Group) : Bool := g.lists.isEmpty

theorem contains_iff {g : Group} {lits : List Lit} : g.contains lits = true ↔ lits ∈ g.lists :=
  List.contains_iff_mem

theorem contains_eq_false_iff {g : Group} {lits : List Lit} :
    g.contains lits = false ↔ lits ∉ g.lists := by
  rw [← contains_iff, Bool.not_eq_true]

/-- Put a list that is not there at the end. -/
def push (g : Group) (lits : List Lit) (new : g.contains lits = false) : Group where
  lists := g.lists ++ [lits]
  nodup := by
    rw [(List.perm_append_singleton lits g.lists).nodup_iff, List.nodup_cons]
    exact ⟨contains_eq_false_iff.1 new, g.nodup⟩

/-- Take a list out; the last list of the group comes in its place. -/
def erase? (g : Group) (lits : List Lit) : Option Group :=
  match g.lists.idxOf? lits with
  | none => none
  | some i => some ⟨swapRemove g.lists i, nodup_swapRemove g.nodup i⟩

@[simp] theorem contains_empty (lits : List Lit) : empty.contains lits = false := rfl

theorem contains_push (g : Group) {lits : List Lit} (new : g.contains lits = false)
    (other : List Lit) :
    (g.push lits new).contains other = (decide (other = lits) || g.contains other) := by
  rw [Bool.eq_iff_iff, Bool.or_eq_true, decide_eq_true_eq, contains_iff, contains_iff, push,
    List.mem_append, List.mem_singleton, or_comm]

/-- Only a list that is there is taken out. -/
theorem erase?_eq_none_iff {g : Group} {lits : List Lit} :
    g.erase? lits = none ↔ g.contains lits = false := by
  rw [contains_eq_false_iff, ← List.idxOf?_eq_none_iff]
  unfold erase?
  cases g.lists.idxOf? lits with
  | none => simp
  | some i => simp

/-- What is taken out and what is left are the whole group. -/
theorem perm_of_erase? {g left : Group} {lits : List Lit} (h : g.erase? lits = some left) :
    (lits :: left.lists).Perm g.lists := by
  unfold erase? at h
  split at h
  · cases h
  · rename_i i hi
    cases h
    obtain ⟨hlt, hget, -⟩ := List.idxOf?_eq_some_iff.1 hi
    exact swapRemove_perm (List.getElem?_eq_some_iff.2 ⟨hlt, hget⟩)

theorem contains_of_erase? {g left : Group} {gone : List Lit} (h : g.erase? gone = some left)
    (lits : List Lit) : left.contains lits = (decide (lits ≠ gone) && g.contains lits) := by
  have hperm := perm_of_erase? h
  have hnodup := hperm.nodup_iff.2 g.nodup
  rw [Bool.eq_iff_iff, Bool.and_eq_true, decide_eq_true_eq, contains_iff, contains_iff,
    ← hperm.mem_iff, List.mem_cons]
  constructor
  · intro hmem
    exact ⟨fun he => (List.nodup_cons.1 hnodup).1 (he ▸ hmem), .inr hmem⟩
  · intro hmem
    exact hmem.2.resolve_left hmem.1

end Group

/-! ## The index -/

/-- A set of clauses, grouped by signature. -/
structure DuplicateIndex where
  groups : Std.TreeMap Signature Group
  /-- Number of clauses in all groups. -/
  size : Nat

namespace DuplicateIndex

/-- The index without clauses. -/
def empty : DuplicateIndex := ⟨∅, 0⟩

instance : Inhabited DuplicateIndex := ⟨empty⟩

/-- The lists with a signature. -/
def group (index : DuplicateIndex) (s : Signature) : Group := index.groups.getD s .empty

/-- A clause with these literals is in the index. -/
def contains (index : DuplicateIndex) (lits : List Lit) : Bool :=
  (index.group (signature lits)).contains lits

/-- The index has no clause. -/
def isEmpty (index : DuplicateIndex) : Bool := index.size == 0

/-- Put in a clause; the result says whether it was new. -/
def insert (index : DuplicateIndex) (c : Clause) : DuplicateIndex × Bool :=
  let s := signature c.lits
  let group := index.group s
  if known : group.contains c.lits = true then (index, false)
  else
    let group := group.push c.lits (Bool.eq_false_iff.2 known)
    (⟨index.groups.insert s group, index.size + 1⟩, true)

/-- Whether a clause is in the index; one that is not is put in if `insertIfAbsent` is set. -/
def check (index : DuplicateIndex) (c : Clause) (insertIfAbsent : Bool) :
    DuplicateIndex × Bool :=
  if insertIfAbsent then
    let (index, new) := index.insert c
    (index, !new)
  else (index, index.contains c.lits)

/-- Take out the clause with these literals; the result says whether there was one.  A group that
becomes empty is given up. -/
def erase (index : DuplicateIndex) (lits : List Lit) : DuplicateIndex × Bool :=
  let s := signature lits
  match (index.group s).erase? lits with
  | none => (index, false)
  | some left =>
    let groups := if left.isEmpty then index.groups.erase s else index.groups.insert s left
    (⟨groups, index.size - 1⟩, true)

@[simp] theorem contains_empty (lits : List Lit) : empty.contains lits = false := by
  simp [contains, group, empty]

/-- What is in the index cannot be put in again. -/
theorem insert_of_contains {index : DuplicateIndex} {c : Clause}
    (h : index.contains c.lits = true) : index.insert c = (index, false) := by
  simp only [contains] at h
  simp [insert, h]

/-- What is not in the index joins the group of its signature. -/
theorem insert_of_not_contains {index : DuplicateIndex} {c : Clause}
    (h : index.contains c.lits = false) :
    index.insert c =
      (⟨index.groups.insert (signature c.lits)
          ((index.group (signature c.lits)).push c.lits h), index.size + 1⟩, true) := by
  have known : ¬ (index.group (signature c.lits)).contains c.lits = true := Bool.eq_false_iff.1 h
  simp only [insert, dif_neg known]

/-- What is not in the index is new to it. -/
theorem insert_snd (index : DuplicateIndex) (c : Clause) :
    (index.insert c).2 = !index.contains c.lits := by
  cases h : index.contains c.lits with
  | true => rw [insert_of_contains h]; rfl
  | false => rw [insert_of_not_contains h]; rfl

/-- Putting in a clause extends the group of its signature and no other. -/
theorem contains_group_insert (index : DuplicateIndex) (c : Clause) (s : Signature)
    (lits : List Lit) :
    ((index.insert c).1.group s).contains lits =
      (decide (s = signature c.lits ∧ lits = c.lits) || (index.group s).contains lits) := by
  cases h : index.contains c.lits with
  | true =>
    rw [insert_of_contains h]
    by_cases hl : s = signature c.lits ∧ lits = c.lits
    · rw [hl.1, hl.2, show (index.group (signature c.lits)).contains c.lits = true from h,
        Bool.or_true]
    · simp [hl]
  | false =>
    rw [insert_of_not_contains h]
    by_cases hs : s = signature c.lits
    · subst hs
      simp [group, Group.contains_push]
    · have hs' : ¬ signature c.lits = s := fun e => hs e.symm
      simp [group, hs, hs', Std.TreeMap.getD_insert]

/-- An index has what was put in and what it had before. -/
theorem contains_insert (index : DuplicateIndex) (c : Clause) (lits : List Lit) :
    (index.insert c).1.contains lits = (decide (lits = c.lits) || index.contains lits) := by
  have hboth : (signature lits = signature c.lits ∧ lits = c.lits) ↔ lits = c.lits :=
    and_iff_right_of_imp fun hl => hl ▸ rfl
  rw [contains, contains_group_insert, contains]
  simp only [hboth]

/-- What is not in the index cannot be taken out. -/
theorem erase_of_not_contains {index : DuplicateIndex} {lits : List Lit}
    (h : index.contains lits = false) : index.erase lits = (index, false) := by
  simp only [erase, Group.erase?_eq_none_iff.2 h]

/-- What is in the index is taken out of the group of its signature, and no other group changes. -/
theorem erase_of_contains {index : DuplicateIndex} {lits : List Lit}
    (h : index.contains lits = true) :
    ∃ left, (index.group (signature lits)).erase? lits = some left ∧
      index.erase lits =
        (⟨if left.isEmpty then index.groups.erase (signature lits)
          else index.groups.insert (signature lits) left, index.size - 1⟩, true) := by
  cases hleft : (index.group (signature lits)).erase? lits with
  | none =>
    have hnot : index.contains lits = false := Group.erase?_eq_none_iff.1 hleft
    rw [h] at hnot
    cases hnot
  | some left => exact ⟨left, rfl, by simp only [erase, hleft]⟩

/-- Taking out a clause concerns the group of its signature and no other. -/
theorem contains_group_erase (index : DuplicateIndex) (gone : List Lit) (s : Signature)
    (lits : List Lit) :
    ((index.erase gone).1.group s).contains lits =
      (decide (¬ (s = signature gone ∧ lits = gone)) && (index.group s).contains lits) := by
  cases h : index.contains gone with
  | false =>
    rw [erase_of_not_contains h]
    by_cases hl : s = signature gone ∧ lits = gone
    · rw [hl.1, hl.2, show (index.group (signature gone)).contains gone = false from h,
        Bool.and_false]
    · simp [hl]
  | true =>
    obtain ⟨left, hleft, herase⟩ := erase_of_contains h
    rw [herase]
    by_cases hs : s = signature gone
    · subst hs
      have hcontains := Group.contains_of_erase? hleft lits
      by_cases he : left.isEmpty = true
      · have hnil : left.contains lits = false := by
          rw [Group.contains, List.isEmpty_iff.1 he]
          rfl
        rw [hnil] at hcontains
        simpa [group, he] using hcontains
      · simpa [group, he] using hcontains
    · have hs' : ¬ signature gone = s := fun e => hs e.symm
      by_cases he : left.isEmpty = true
      · simp [group, he, hs, hs', Std.TreeMap.getD_erase]
      · simp [group, he, hs, hs', Std.TreeMap.getD_insert]

/-- What was taken out is gone, and nothing else. -/
theorem contains_erase (index : DuplicateIndex) (gone lits : List Lit) :
    (index.erase gone).1.contains lits = (decide (lits ≠ gone) && index.contains lits) := by
  have hboth : (signature lits = signature gone ∧ lits = gone) ↔ lits = gone :=
    and_iff_right_of_imp fun hl => hl ▸ rfl
  rw [contains, contains_group_erase, contains]
  simp only [hboth, ne_eq]

end DuplicateIndex

end BucketElimination
