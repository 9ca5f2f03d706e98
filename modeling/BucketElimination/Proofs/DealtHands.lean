import BucketElimination.Proofs.BucketStacks
import BucketElimination.Proofs.Dealing
import Mathlib.Data.List.Basic
import Mathlib.Logic.ExistsUnique
set_option autoImplicit false

/-!
# Dealt hands: which clause is in which hand

The negative clauses of a bucket are dealt in turn, so with `k` hands the clause at position `i` is
in the hand `i % k` and has the place `i / k` there.  Seen from the hands, the clause at place `m`
of the hand `j` is the one at position `m * k + j`.  The hands differ in length by at most one, the
longer ones come first, and since there are no more hands than clauses, none of them is empty.

`Dealt` says this of the hands while they are filled.  Dealing one more element keeps it, and so
does dealing a whole list.
-/

namespace BucketElimination

variable {α : Type}

/-! ## Places and positions -/

/-- A place of a hand belongs to a position of the list exactly if the hand is long enough for it:
each complete round fills one place of every hand, the last round one more of the first hands. -/
theorem position_lt_iff {parts j : Nat} (hj : j < parts) (count m : Nat) :
    m * parts + j < count ↔ m < count / parts + if j < count % parts then 1 else 0 := by
  have hturn := Nat.mod_lt count (Nat.zero_lt_of_lt hj)
  have hsplit := Nat.div_add_mod' count parts
  rcases Nat.lt_trichotomy m (count / parts) with hlt | rfl | hgt
  · have hround := Nat.mul_le_mul_right parts hlt
    rw [Nat.succ_mul] at hround
    split <;> omega
  · split <;> omega
  · have hround := Nat.mul_le_mul_right parts hgt
    rw [Nat.succ_mul] at hround
    split <;> omega

/-- The place and the hand of a position are its quotient and its remainder. -/
theorem place_unique {parts j m i : Nat} (hj : j < parts) (h : m * parts + j = i) :
    j = i % parts ∧ m = i / parts := by
  subst h
  refine ⟨(Nat.mul_add_mod_of_lt hj).symm, ?_⟩
  rw [Nat.add_comm, Nat.add_mul_div_right _ _ (Nat.zero_lt_of_lt hj), Nat.div_eq_of_lt hj,
    Nat.zero_add]

/-! ## Hands that are being filled -/

/-- The list was dealt in turn to the hands. -/
structure Dealt (parts : Nat) (xs : List α) (hands : Array (Array α)) : Prop where
  size_eq : hands.size = parts
  /-- The element at a place of a hand. -/
  get_eq : ∀ (j : Nat) (hj : j < hands.size) (m : Nat), hands[j][m]? = xs[m * parts + j]?

section

variable {parts : Nat} {xs : List α} {hands : Array (Array α)}

theorem dealt_nil (parts : Nat) : Dealt parts ([] : List α) (Array.replicate parts #[]) where
  size_eq := Array.size_replicate
  get_eq := by
    intro j hj m
    simp

theorem Dealt.length_eq (h : Dealt parts xs hands) {j : Nat} (hj : j < hands.size) :
    hands[j].size = xs.length / parts + if j < xs.length % parts then 1 else 0 := by
  have hlt : ∀ m, m < hands[j].size ↔
      m < xs.length / parts + if j < xs.length % parts then 1 else 0 := by
    intro m
    rw [← position_lt_iff (h.size_eq ▸ hj), ← Nat.not_le, ← Nat.not_le,
      ← Array.getElem?_eq_none_iff, ← List.getElem?_eq_none_iff, h.get_eq j hj m]
  exact eq_of_forall_lt_iff hlt

/-- Dealing one more element, to the hand whose turn it is. -/
theorem Dealt.push (h : Dealt parts xs hands) (x : α) :
    Dealt parts (xs ++ [x]) (hands.modify (xs.length % parts) (·.push x)) where
  size_eq := by rw [Array.size_modify, h.size_eq]
  get_eq := by
    intro j hj m
    rw [Array.size_modify] at hj
    have hlast : (xs ++ [x])[m * parts + j]? =
        if m * parts + j = xs.length then some x else hands[j][m]? := by
      rw [h.get_eq j hj m]
      grind
    rw [Array.getElem_modify, hlast]
    have hsplit := Nat.div_add_mod' xs.length parts
    by_cases hturn : xs.length % parts = j
    · -- the hand has one place for each complete round, and the element gets the next one
      have hsize : hands[j].size = xs.length / parts := by
        rw [h.length_eq hj, hturn, if_neg (Nat.lt_irrefl j), Nat.add_zero]
      rw [if_pos hturn, Array.getElem?_push, hsize]
      have hplace : m = xs.length / parts ↔ m * parts + j = xs.length := by
        constructor
        · rintro rfl
          rw [← hturn, hsplit]
        · intro hm
          exact (place_unique (h.size_eq ▸ hj) hm).2
      simp only [hplace]
    · -- its position belongs to another hand
      rw [if_neg hturn, if_neg]
      intro hm
      exact hturn (place_unique (h.size_eq ▸ hj) hm).1.symm

/-- Dealing a whole list, from the hand whose turn it is. -/
theorem Dealt.foldl (h : Dealt parts xs hands) (ys : List α) :
    Dealt parts (xs ++ ys) (ys.foldl
      (fun (acc : Nat × Array (Array α)) x => (acc.1 + 1, acc.2.modify (acc.1 % parts) (·.push x)))
      (xs.length, hands)).2 := by
  induction ys generalizing xs hands with
  | nil => rwa [List.append_nil]
  | cons y ys ih =>
    have hnext := ih (h.push y)
    rw [List.length_append, List.length_singleton, List.append_assoc] at hnext
    exact hnext

end

/-! ## Dealt lists -/

section

variable {parts : Nat} {xs : List α}

/-- A dealt list has a hand for each of the parts. -/
theorem exists_hand (xs : List α) {j : Nat} (hj : j < parts) :
    ∃ hand, (deal parts xs)[j]? = some hand ∧
      hand.length = xs.length / parts + (if j < xs.length % parts then 1 else 0) ∧
      ∀ m, hand[m]? = xs[m * parts + j]? := by
  have hdealt := (dealt_nil parts).foldl xs
  rw [List.nil_append, List.length_nil] at hdealt
  unfold deal
  generalize xs.foldl _ (0, Array.replicate parts #[]) = acc at hdealt ⊢
  obtain ⟨count, hands⟩ := acc
  have hj' : j < hands.size := hdealt.size_eq.symm ▸ hj
  refine ⟨hands[j].toList, by simp [hj'], hdealt.length_eq hj', fun m => ?_⟩
  rw [Array.getElem?_toList]
  exact hdealt.get_eq j hj' m

/-- What each hand of a dealt list is. -/
theorem getElem?_deal_eq_some (hparts : 0 < parts) {j : Nat} {hand : List α}
    (h : (deal parts xs)[j]? = some hand) :
    j < parts ∧ hand.length = xs.length / parts + (if j < xs.length % parts then 1 else 0) ∧
      ∀ m, hand[m]? = xs[m * parts + j]? := by
  have hj : j < parts := by
    have hbound := (List.getElem?_eq_some_iff.1 h).1
    rwa [length_deal hparts] at hbound
  obtain ⟨hand', h', hlength, hget⟩ := exists_hand xs hj
  rw [h] at h'
  cases h'
  exact ⟨hj, hlength, hget⟩

/-- Where the element at a position is found. -/
theorem getElem?_place (hparts : 0 < parts) {i : Nat} {x : α} (h : xs[i]? = some x) :
    ∃ hand, (deal parts xs)[i % parts]? = some hand ∧ hand[i / parts]? = some x := by
  obtain ⟨hand, hj, -, hget⟩ := exists_hand xs (Nat.mod_lt i hparts)
  refine ⟨hand, hj, ?_⟩
  rw [hget, Nat.div_add_mod', h]

/-- What is in a list once is in one hand, at one place. -/
theorem existsUnique_place (hparts : 0 < parts) (hnodup : xs.Nodup) {x : α} (hx : x ∈ xs) :
    ∃! place : Nat × Nat,
      ∃ hand, (deal parts xs)[place.1]? = some hand ∧ hand[place.2]? = some x := by
  obtain ⟨i, hi⟩ := List.mem_iff_getElem?.1 hx
  refine ⟨(i % parts, i / parts), getElem?_place hparts hi, ?_⟩
  rintro ⟨j, m⟩ ⟨hand, hj, hm⟩
  obtain ⟨hlt, -, hget⟩ := getElem?_deal_eq_some hparts hj
  rw [hget] at hm
  -- both places belong to one position of the list
  have hbound := (List.getElem?_eq_some_iff.1 hm).1
  have hsame : m * parts + j = i := (List.getElem?_inj hbound hnodup).1 (hm.trans hi.symm)
  obtain ⟨rfl, rfl⟩ := place_unique hlt hsame
  rfl

end

/-! ## The negative clauses of a bucket -/

/-- The negative clauses of a bucket are dealt in turn to as many hands as there are workers or
clauses, whichever is less.  No hand is empty, their lengths differ by at most one, and each clause
has its place in one hand. -/
theorem Bucket.Built.deals_in_turn {v : Var} {b : Bucket} (h : b.Built v) {parts : Nat}
    (hparts : 1 ≤ parts) :
    let count := b.size .negative
    let k := min parts count
    (b.clauses .negative).length = count ∧
    ∃ hands, b.dealNegatives parts = .ok hands ∧ hands.length = k ∧
      (∀ j hand, hands[j]? = some hand →
        hand ≠ [] ∧ hand.length = count / k + if j < count % k then 1 else 0) ∧
      (∀ i c, (b.clauses .negative)[i]? = some c →
        ∃ hand, hands[i % k]? = some hand ∧ hand[i / k]? = some c) ∧
      hands.flatten.Perm (b.clauses .negative) ∧
      ∀ c ∈ b.clauses .negative, ∃! place : Nat × Nat,
        ∃ hand, hands[place.1]? = some hand ∧ hand[place.2]? = some c := by
  intro count k
  obtain ⟨hsided, -⟩ := h.sided
  have hlength : (b.clauses .negative).length = count := (hsided.size_eq .negative).symm
  have hnodup : (b.clauses .negative).Nodup := hsided.clauses_eq .negative ▸ hsided.nodup .negative
  have hdeal : b.dealNegatives parts = .ok (deal k (b.clauses .negative)) := by
    unfold Bucket.dealNegatives
    exact if_neg (by omega)
  refine ⟨hlength, _, hdeal, ?_⟩
  rcases Nat.eq_zero_or_pos count with hzero | hpos
  · -- without clauses there are no hands
    have hnil : b.clauses .negative = [] := List.length_eq_zero_iff.1 (hlength.trans hzero)
    have hk : k = 0 := by omega
    rw [hnil, hk]
    simp [deal]
  · have hk : 0 < k := by omega
    refine ⟨length_deal hk _, fun j hand hj => ?_, fun i c hi => getElem?_place hk hi,
      flatten_deal_perm hk _, fun c hc => existsUnique_place hk hnodup hc⟩
    obtain ⟨-, hhand, -⟩ := getElem?_deal_eq_some hk hj
    rw [hlength] at hhand
    have hround : 0 < count / k := Nat.div_pos (Nat.min_le_right _ _) hk
    refine ⟨?_, hhand⟩
    rw [← List.length_pos_iff, hhand]
    omega

namespace Bucket

/-- A literal of the first variable with the negation of the second. -/
def negativeClause (p : Polarity) : Clause :=
  ⟨[⟨default, p⟩, ⟨pivotVar, .negative⟩], by cases p <;> rfl⟩

/-- The negated second variable alone. -/
def negativeUnit : Clause := ⟨[⟨pivotVar, .negative⟩], rfl⟩

/-- A bucket with these three clauses, the last of them in a chunk of its own. -/
def threeNegatives : Bucket :=
  ((((empty pivotVar .descending ⟨2, Nat.two_pos⟩).store (negativeClause .positive)
    ⟨pivotVar, .negative⟩).1.store (negativeClause .negative) ⟨pivotVar, .negative⟩).1.store
      negativeUnit ⟨pivotVar, .negative⟩).1

theorem built_threeNegatives : threeNegatives.Built pivotVar := by
  have hempty : (empty pivotVar .descending ⟨2, Nat.two_pos⟩).Built pivotVar := .empty _ trivial
  have hfirst := hempty.add
    (rfl : Bucket.add _ (negativeClause .positive) .negative = .ok (_, true))
  have hsecond := hfirst.add
    (rfl : Bucket.add _ (negativeClause .negative) .negative = .ok (_, true))
  exact hsecond.add (rfl : Bucket.add _ negativeUnit .negative = .ok (threeNegatives, true))

/-- The theorem on three clauses that are dealt to two hands: the first hand is the longer one, and
the clause stored last is the second in it. -/
theorem deals_in_turn_threeNegatives :
    threeNegatives.Built pivotVar ∧ 1 ≤ 2 ∧
      ∃ first second, threeNegatives.dealNegatives 2 = .ok [first, second] ∧
        first.length = 2 ∧ second.length = 1 ∧ first[1]? = some negativeUnit := by
  have hsize : threeNegatives.size .negative = 3 := rfl
  have hlast : (threeNegatives.clauses .negative)[2]? = some negativeUnit := by
    rw [built_threeNegatives.sided.1.clauses_eq]
    rfl
  obtain ⟨-, hands, hdeal, hlength, hhands, hplace, -⟩ :=
    built_threeNegatives.deals_in_turn (Nat.le_succ 1)
  rw [hsize] at hlength hhands hplace
  obtain ⟨first, second, rfl⟩ := List.length_eq_two.1 hlength
  obtain ⟨hand, hfirst, hunit⟩ := hplace 2 negativeUnit hlast
  cases hfirst
  exact ⟨built_threeNegatives, Nat.le_succ 1, first, second, hdeal, (hhands 0 first rfl).2,
    (hhands 1 second rfl).2, hunit⟩

end Bucket

end BucketElimination
