import BucketElimination.Proofs.BucketInvariant
import BucketElimination.Elimination.Task
set_option autoImplicit false

/-!
# Dealing: every negative clause is in one hand

Dealing a list to a positive number of hands only distributes it: the hands together are a
permutation of the list.
-/

namespace BucketElimination

variable {α : Type}

/-- Putting an element into one of the hands adds it to all hands together. -/
theorem flatten_modify_push_perm (hands : Array (Array α)) {i : Nat} (hi : i < hands.size) (x : α) :
    ((hands.modify i (·.push x)).toList.map Array.toList).flatten.Perm
      ((hands.toList.map Array.toList).flatten ++ [x]) := by
  have hi' : i < hands.toList.length := by simpa using hi
  obtain ⟨before, after, hsplit, hmodify⟩ : ∃ before after,
      hands.toList = before ++ hands[i] :: after ∧
        (hands.modify i (·.push x)).toList = before ++ hands[i].push x :: after := by
    refine ⟨hands.toList.take i, hands.toList.drop (i + 1), ?_, ?_⟩
    · rw [← Array.getElem_toList, ← List.drop_eq_getElem_cons hi', List.take_append_drop]
    · rw [Array.toList_modify, List.modify_eq_take_cons_drop hi', Array.getElem_toList]
  rw [hmodify, hsplit]
  simp only [List.map_append, List.map_cons, List.flatten_append, List.flatten_cons,
    Array.toList_push, List.append_assoc]
  exact List.Perm.append_left _ (List.Perm.append_left _ List.perm_append_comm)

/-- The hands together have what was dealt, and their number stays. -/
theorem foldl_deal_perm {parts : Nat} (hparts : 0 < parts) (xs : List α) (n : Nat)
    (hands : Array (Array α)) (hsize : hands.size = parts) :
    let dealt := xs.foldl
      (fun (acc : Nat × Array (Array α)) x => (acc.1 + 1, acc.2.modify (acc.1 % parts) (·.push x)))
      (n, hands)
    dealt.2.size = parts ∧
      (dealt.2.toList.map Array.toList).flatten.Perm
        ((hands.toList.map Array.toList).flatten ++ xs) := by
  induction xs generalizing n hands with
  | nil => exact ⟨hsize, by simp⟩
  | cons x xs ih =>
    have hlt : n % parts < hands.size := by
      rw [hsize]
      exact Nat.mod_lt n hparts
    obtain ⟨hsize', hperm⟩ :=
      ih (n + 1) (hands.modify (n % parts) (·.push x)) (by simpa using hsize)
    refine ⟨hsize', hperm.trans ?_⟩
    refine ((flatten_modify_push_perm hands hlt x).append_right xs).trans ?_
    rw [List.append_assoc]
    exact List.Perm.refl _

theorem length_deal {parts : Nat} (hparts : 0 < parts) (xs : List α) :
    (deal parts xs).length = parts := by
  simpa [deal] using (foldl_deal_perm hparts xs 0 (Array.replicate parts #[]) (by simp)).1

/-- The hands together are a permutation of what is dealt. -/
theorem flatten_deal_perm {parts : Nat} (hparts : 0 < parts) (xs : List α) :
    (deal parts xs).flatten.Perm xs := by
  have hperm := (foldl_deal_perm hparts xs 0 (Array.replicate parts #[]) (by simp)).2
  have hnil : ((Array.replicate parts (#[] : Array α)).toList.map Array.toList).flatten = [] := by
    simp
  rw [hnil, List.nil_append] at hperm
  simpa [deal] using hperm

/-- The negative clauses of a bucket that has some are dealt to workers without loss. -/
theorem Bucket.WellFormed.dealNegatives {b : Bucket} (h : b.WellFormed) {parts : Nat}
    (hparts : 0 < parts) (hneg : b.clauses .negative ≠ []) :
    ∃ hands, b.dealNegatives parts = .ok hands ∧ hands ≠ [] ∧
      hands.flatten.Perm (b.clauses .negative) := by
  have hcount : 0 < b.size .negative := by
    rw [h.size_eq]
    exact List.length_pos_iff.2 hneg
  have hmin : 0 < min parts (b.size .negative) := by omega
  refine ⟨deal (min parts (b.size .negative)) (b.clauses .negative), ?_, ?_,
    flatten_deal_perm hmin _⟩
  · unfold Bucket.dealNegatives
    exact if_neg (by omega)
  · intro hnil
    have hlength := length_deal hmin (b.clauses .negative)
    rw [hnil, List.length_nil] at hlength
    omega

end BucketElimination
