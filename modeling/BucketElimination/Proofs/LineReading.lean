import BucketElimination.Proofs.Grammar
import BucketElimination.Proofs.StreamedReading
set_option autoImplicit false

/-!
# Reading line by line

The reader takes byte after byte, the grammar speaks of lines and words.  Read as a whole, a line
adds to what the lines before it said, or is refused: a `Reading` says what the lines so far come
to.  The reader accepts a line exactly if the line can be taken in, and afterwards it holds the
clauses and the open clause that the numbers read so far amount to.
-/

namespace BucketElimination.Dimacs

/-! ## What lines come to -/

/-- What the lines so far say. -/
structure Reading where
  header : Option Header
  numbers : List Int

namespace Reading

/-- Take in a word, which is a number within the bounds of the header. -/
def takeWord? (s : Reading) (word : List UInt8) : Option Reading :=
  match s.header, number? word with
  | some header, some n =>
    if n.natAbs ≤ header.varCount then some { s with numbers := s.numbers ++ [n] } else none
  | _, _ => none

/-- Take in words one after the other. -/
def takeWords? : Reading → List (List UInt8) → Option Reading
  | s, [] => some s
  | s, word :: more => (s.takeWord? word).bind (·.takeWords? more)

/-- Take in a header, of which there is only one. -/
def takeHeader? (s : Reading) (bytes : List UInt8) : Option Reading :=
  match s.header, Header.ofText? (Utf8.decodeLossy bytes) with
  | none, some header =>
    if Var.maxNumber < header.varCount then none else some { s with header := some header }
  | _, _ => none

/-- Take in a line in front of all trailers. -/
def takeLine? (s : Reading) (line : List UInt8) : Option Reading :=
  match LineKind.ofLine line with
  | .header => s.takeHeader? (content line)
  | .clause => s.takeWords? (words line)
  | _ => some s

/-- Take in lines one after the other. -/
def takeLines? : Reading → List (List UInt8) → Option Reading
  | s, [] => some s
  | s, line :: more => (s.takeLine? line).bind (·.takeLines? more)

theorem takeWords?_append (s : Reading) (words more : List (List UInt8)) :
    s.takeWords? (words ++ more) = (s.takeWords? words).bind (·.takeWords? more) := by
  induction words generalizing s with
  | nil => rfl
  | cons word words ih =>
    rw [List.cons_append, takeWords?, takeWords?]
    cases s.takeWord? word with
    | none => rfl
    | some s' => exact ih s'

end Reading

/-! ## What the reader holds -/

/-- Between numbers, the reader holds what the lines so far say. -/
structure Holds (s : Reading) (r : Reader) : Prop where
  unfailed : r.failed = false
  header_eq : r.header = s.header
  header_le : ∀ header, s.header = some header → header.varCount ≤ Var.maxNumber
  reachable : r.formula.Reachable
  varCount_eq : r.formula.varCount = (s.header.map Header.varCount).getD 0
  number_le : ∀ l ∈ r.partialClause.toList, l.var.number ≤ r.formula.varCount
  /-- The closed clauses and the open one are the groups between the zeros. -/
  groups_eq : (r.formula.clauses ++ [r.partialClause.toList]).map (·.map Lit.toInt) =
    s.numbers.splitOnP (· == 0)
  clauseCount_eq : r.clauseCount = s.numbers.count 0

/-- At the start of a line. -/
structure AtStart (s : Reading) (r : Reader) : Prop extends Holds s r where
  line_eq : r.line = .start
  token_eq : r.token = .idle
  headerBytes_eq : s.header = none → r.headerBytes = #[]

/-- The reader goes on exactly if the reading does, and then they agree. -/
inductive Follows (P : Reading → Reader → Prop) :
    Reader × Except Error Unit → Option Reading → Prop
  | ok {s : Reading} {r : Reader} : P s r → Follows P (r, .ok ()) (some s)
  | error {r : Reader} {e : Error} : Follows P (r, .error e) none

/-- A change of the state that has no part in what the reader holds. -/
theorem Holds.change {s : Reading} {r r' : Reader} (h : Holds s r) (hfailed : r'.failed = r.failed)
    (hheader : r'.header = r.header) (hformula : r'.formula = r.formula)
    (hpartial : r'.partialClause = r.partialClause) (hcount : r'.clauseCount = r.clauseCount) :
    Holds s r' where
  unfailed := hfailed.trans h.unfailed
  header_eq := hheader.trans h.header_eq
  header_le := h.header_le
  reachable := hformula ▸ h.reachable
  varCount_eq := hformula ▸ h.varCount_eq
  number_le := by rw [hformula, hpartial]; exact h.number_le
  groups_eq := by rw [hformula, hpartial]; exact h.groups_eq
  clauseCount_eq := hcount.trans h.clauseCount_eq

/-! ## Numbers -/

/-- Splitting is extended at its end. -/
theorem splitOnP_append_singleton {α : Type} (p : α → Bool) (xs : List α) (x : α) :
    (xs ++ [x]).splitOnP p =
      if p x then xs.splitOnP p ++ [[]]
      else (xs.splitOnP p).dropLast ++ [(xs.splitOnP p).getLastD [] ++ [x]] := by
  by_cases hx : p x = true
  · rw [if_pos hx, List.splitOnP_append_cons xs [] hx, List.splitOnP_nil]
  · rw [if_neg hx]
    induction xs with
    | nil => simp [List.splitOnP_cons_eq_if_modifyHead, hx]
    | cons y ys ih =>
      rw [List.cons_append, List.splitOnP_cons_eq_if_modifyHead,
        List.splitOnP_cons_eq_if_modifyHead, ih]
      obtain ⟨group, groups, hsplit⟩ := List.exists_cons_of_ne_nil (List.splitOnP_ne_nil p ys)
      rw [hsplit]
      by_cases hy : p y = true
      · simp [hy]
      · cases groups <;> simp [hy]

theorem natAbs_toInt (l : Lit) : l.toInt.natAbs = l.var.number := by
  unfold Lit.toInt
  cases l.polarity <;> simp

theorem toInt_ne_zero (l : Lit) : l.toInt ≠ 0 := by
  have habs := natAbs_toInt l
  have hone := l.var.one_le
  omega

namespace Holds

variable {s : Reading} {r : Reader} {header : Header}

/-- A zero closes the open clause. -/
theorem closeClause (h : Holds s r) :
    Holds { s with numbers := s.numbers ++ [0] } r.closeClause where
  unfailed := h.unfailed
  header_eq := h.header_eq
  header_le := h.header_le
  reachable := h.reachable.addClause _
  varCount_eq := by
    rw [← h.varCount_eq]
    refine Nat.max_eq_left (Formula.maxVarNumber_le_iff.2 h.number_le)
  number_le := by simp [Reader.closeClause]
  groups_eq := by
    rw [splitOnP_append_singleton, if_pos (BEq.rfl), ← h.groups_eq]
    simp [Reader.closeClause, h.reachable.wellFormed.clauses_addClause]
  clauseCount_eq := by
    show r.clauseCount + 1 = _
    rw [h.clauseCount_eq, List.count_append]
    rfl

/-- Any other number goes to the open clause. -/
theorem addLit (h : Holds s r) {l : Lit} (hl : l.var.number ≤ r.formula.varCount) :
    Holds { s with numbers := s.numbers ++ [l.toInt] } (r.addLit l) where
  unfailed := h.unfailed
  header_eq := h.header_eq
  header_le := h.header_le
  reachable := h.reachable
  varCount_eq := h.varCount_eq
  number_le := by
    intro m hm
    simp only [Reader.addLit, Array.toList_push, List.mem_append, List.mem_singleton] at hm
    rcases hm with hm | rfl
    · exact h.number_le m hm
    · exact hl
  groups_eq := by
    rw [splitOnP_append_singleton, if_neg (by simpa using toInt_ne_zero l), ← h.groups_eq]
    simp [Reader.addLit]
  clauseCount_eq := by
    rw [List.count_append, List.count_singleton, if_neg (by simpa using toInt_ne_zero l)]
    exact h.clauseCount_eq

end Holds

/-! ## Words -/

namespace Token

/-- The bytes of the word being read. -/
def Spelled (w : List UInt8) : Token → Prop
  | .idle => w = []
  | .minus => w = [45]
  | .number value negative =>
    ∃ digits, w = (if negative then [45] else []) ++ digits ∧ magnitude? digits = some value

variable {w : List UInt8} {t : Token}

/-- What a number comes to when its word goes on. -/
theorem Spelled.number?_append {value : Nat} {negative : Bool}
    (h : Spelled w (.number value negative)) (x : List UInt8) :
    number? (w ++ x) =
      (appendDigits? value x).map fun n : Nat => if negative then -(n : Int) else n := by
  obtain ⟨digits, rfl, hdigits⟩ := h
  cases negative with
  | true =>
    rw [if_pos rfl, List.append_assoc, List.singleton_append, number?_minus,
      magnitude?_append hdigits]
    rfl
  | false =>
    rw [if_neg (by decide), List.nil_append, number?_of_ne, magnitude?_append hdigits]
    · rfl
    · -- the first byte is a digit
      rintro rest hrest
      cases digits with
      | nil => cases hdigits
      | cons b digits =>
        cases hrest
        rw [magnitude?_cons] at hdigits
        cases hdigits

theorem Spelled.number?_eq {value : Nat} {negative : Bool}
    (h : Spelled w (.number value negative)) :
    number? w = some (if negative then -(value : Int) else value) := by
  have happend := h.number?_append []
  rwa [List.append_nil] at happend

/-- A digit goes on with the word. -/
theorem Spelled.digit (h : Spelled w t) {b : UInt8} {digit : Nat} (hb : digit? b = some digit) :
    Spelled (w ++ [b]) (.number (t.value * 10 + digit) t.negative) := by
  have hone : magnitude? [b] = some (0 * 10 + digit) := by
    rw [magnitude?_cons, hb, Nat.zero_mul, Nat.zero_add]
    rfl
  cases t with
  | idle =>
    obtain rfl := h
    exact ⟨[b], rfl, hone⟩
  | minus =>
    obtain rfl := h
    exact ⟨[b], rfl, hone⟩
  | number value negative =>
    obtain ⟨digits, rfl, hdigits⟩ := h
    refine ⟨digits ++ [b], List.append_assoc _ _ _, ?_⟩
    rw [magnitude?_append hdigits, appendDigits?_cons, hb]
    rfl

/-- Any other byte, a minus sign at the beginning apart, makes that the word is no number. -/
theorem Spelled.number?_eq_none (h : Spelled w t) {b : UInt8} (hb : digit? b = none)
    (hminus : ¬ (b = 45 ∧ t = .idle)) (x : List UInt8) : number? (w ++ b :: x) = none := by
  have hone : magnitude? (b :: x) = none := by
    rw [magnitude?_cons, hb]
    rfl
  cases t with
  | idle =>
    obtain rfl := h
    rw [List.nil_append, number?_of_ne, hone]
    · rfl
    · rintro rest hrest
      cases hrest
      exact hminus ⟨rfl, rfl⟩
  | minus =>
    obtain rfl := h
    rw [List.singleton_append, number?_minus, hone]
    rfl
  | number value negative =>
    rw [h.number?_append, appendDigits?_cons, hb]
    rfl

end Token

/-- Between numbers, with the line as it was. -/
structure AfterToken (r : Reader) (s : Reading) (r' : Reader) : Prop extends Holds s r' where
  header_kept : r'.header = r.header
  token_eq : r'.token = .idle
  line_eq : r'.line = r.line
  headerBytes_eq : r'.headerBytes = r.headerBytes

/-- The end of a word, if there is one. -/
theorem Holds.finishToken {s : Reading} {r : Reader} (h : Holds s r) {w : List UInt8}
    (hw : r.token.Spelled w) (b : UInt8) :
    Follows (AfterToken r) (r.finishToken b) (if w = [] then some s else s.takeWord? w) := by
  have hdrop : Holds s r.dropToken := h.change rfl rfl rfl rfl rfl
  unfold Reader.finishToken
  cases htoken : r.token with
  | idle =>
    rw [htoken] at hw
    rw [if_pos (show w = [] from hw)]
    exact .ok ⟨h, rfl, htoken, rfl, rfl⟩
  | minus =>
    rw [htoken] at hw
    obtain rfl := hw
    have hnone : s.takeWord? [45] = none := by
      unfold Reading.takeWord?
      cases s.header <;> rfl
    rw [if_neg (by decide), hnone]
    exact .error
  | number value negative =>
    rw [htoken] at hw
    have hnumber := hw.number?_eq
    have hne : w ≠ [] := by
      rintro rfl
      cases hnumber
    rcases s with ⟨_ | header, numbers⟩
    · simp only [if_neg hne, Reading.takeWord?, h.header_eq]
      exact .error
    · simp only [if_neg hne, Reading.takeWord?, hnumber, h.header_eq]
      have hcount : r.formula.varCount = header.varCount := h.varCount_eq
      have hmax := h.header_le header rfl
      by_cases hzero : value = 0
      · subst hzero
        simp only [if_pos]
        cases negative with
        | true => exact .ok ⟨hdrop.closeClause, rfl, rfl, rfl, rfl⟩
        | false => exact .ok ⟨hdrop.closeClause, rfl, rfl, rfl, rfl⟩
      · have habs : (if negative then -(value : Int) else value).natAbs = value := by
          cases negative <;> simp
        simp only [if_neg hzero, habs]
        by_cases hlt : header.varCount < value
        · simp only [if_pos hlt, if_neg (Nat.not_le_of_lt hlt)]
          exact .error
        · simp only [if_neg hlt, if_pos (Nat.le_of_not_lt hlt)]
          cases hv : Var.ofNumber? value with
          | none =>
            rw [Var.ofNumber?_eq_none_iff] at hv
            omega
          | some v =>
            obtain rfl := Var.ofNumber?_eq_some_iff.1 hv
            have hlit : v.number ≤ r.dropToken.formula.varCount := by
              show _ ≤ r.formula.varCount
              omega
            cases negative with
            | true => exact .ok ⟨hdrop.addLit (l := ⟨v, .negative⟩) hlit, rfl, rfl, rfl, rfl⟩
            | false => exact .ok ⟨hdrop.addLit (l := ⟨v, .positive⟩) hlit, rfl, rfl, rfl, rfl⟩

/-! ## Clause lines -/

/-- Take in the bytes of a line, and then the byte that ends it. -/
def Reader.feedLine (r : Reader) (line : List UInt8) (stop : UInt8) : Reader × Except Error Unit :=
  r.feedBytes (line ++ [stop])

theorem Reader.countLine_of_not_endsLine {b : UInt8} (h : endsLine b = false) (r : Reader) :
    r.countLine b = r := by
  rw [Reader.countLine, if_neg]
  rintro rfl
  cases h

section

variable {s : Reading} {r : Reader} {w line : List UInt8} {b stop : UInt8}

/-- A byte of a line that is taken without a complaint. -/
theorem Reader.feedLine_cons_of_ok {r' : Reader} (hstep : r.step b = (r', .ok ()))
    (hb : endsLine b = false) : r.feedLine (b :: line) stop = r'.feedLine line stop := by
  rw [Reader.feedLine, List.cons_append, Reader.feedBytes, hstep]
  simp only [Reader.countLine_of_not_endsLine hb]
  rfl

/-- A byte of a line that is refused. -/
theorem Reader.feedLine_cons_of_error {r' : Reader} {e : Error}
    (hstep : r.step b = (r', .error e)) :
    r.feedLine (b :: line) stop = ({ r' with failed := true }, .error e) := by
  rw [Reader.feedLine, List.cons_append, Reader.feedBytes, hstep]

/-- The first byte of a line, then the others. -/
theorem Follows.feedLine_cons {P Q : Reading → Reader → Prop} {y : Option Reading}
    {g : Reading → Option Reading} (h : Follows P (r.step b) y) (hb : endsLine b = false)
    (hnext : ∀ s r, P s r → Follows Q (r.feedLine line stop) (g s)) :
    Follows Q (r.feedLine (b :: line) stop) (y.bind g) := by
  generalize hstep : r.step b = x at h
  cases h with
  | ok h =>
    rw [Reader.feedLine_cons_of_ok hstep hb]
    exact hnext _ _ h
  | error =>
    rw [Reader.feedLine_cons_of_error hstep]
    exact .error

/-- The byte that ends a line, which only counts lines besides. -/
theorem Follows.feedLine_nil {y : Option Reading} (h : Follows AtStart (r.finishLine stop) y)
    (hstop : endsLine stop = true) (hline : r.line ≠ .trailer) :
    Follows AtStart (r.feedLine [] stop) y := by
  have hstep : r.step stop = r.finishLine stop := by
    unfold Reader.step
    cases hkind : r.line with
    | trailer => exact absurd hkind hline
    | start | clause | comment | header => simp only [Reader.takeByte, hstop, if_true]
  rw [Reader.feedLine, List.nil_append, Reader.feedBytes, hstep]
  generalize r.finishLine stop = x at h
  cases h with
  | error => exact .error
  | @ok s' r' h' =>
    have hcount : AtStart s' (r'.countLine stop) := by
      unfold Reader.countLine
      split
      · exact ⟨h'.toHolds.change rfl rfl rfl rfl rfl, h'.line_eq, h'.token_eq, h'.headerBytes_eq⟩
      · exact h'
    exact .ok hcount

/-- A word that begins like this is refused, however it goes on. -/
theorem Reading.takeWords?_words_eq_none (hw : w ≠ []) (hgap : ∀ b ∈ w, isGap b = false)
    (h : ∀ x, s.takeWord? (w ++ x) = none) : s.takeWords? (words (w ++ line)) = none := by
  obtain ⟨x, more, hwords⟩ := exists_words_append hw hgap line
  rw [hwords, Reading.takeWords?, h]
  rfl

theorem Reading.takeWord?_eq_none (h : number? w = none) : s.takeWord? w = none := by
  rw [Reading.takeWord?, h]
  cases s.header <;> rfl

/-- Words of at most one word. -/
theorem Reading.takeWords?_words (hgap : ∀ b ∈ w, isGap b = false) :
    s.takeWords? (words w) = if w = [] then some s else s.takeWord? w := by
  rw [words_of_no_gap hgap]
  split
  · rfl
  · unfold Reading.takeWords?
    cases s.takeWord? w <;> rfl

/-- Inside of a line, after the bytes `w` of a word. -/
structure InWord (w : List UInt8) (s : Reading) (r : Reader) : Prop extends Holds s r where
  spelled : r.token.Spelled w
  no_gap : ∀ b ∈ w, isGap b = false
  headerBytes_eq : s.header = none → r.headerBytes = #[]

theorem AfterToken.inWord {s' : Reading} {r' : Reader} (h : InWord w s r)
    (h' : AfterToken r s' r') : InWord [] s' r' := by
  refine ⟨h'.toHolds, by rw [h'.token_eq]; rfl, by simp, fun hnone => ?_⟩
  rw [h'.headerBytes_eq]
  exact h.headerBytes_eq (by rw [← h.header_eq, ← h'.header_kept, h'.header_eq, hnone])

/-- The end of a line that is no header. -/
theorem InWord.finishLine (h : InWord w s r) (hstop : endsLine stop = true)
    (hline : r.line ≠ .header ∧ r.line ≠ .trailer) :
    Follows AtStart (r.feedLine [] stop) (s.takeWords? (words w)) := by
  refine Follows.feedLine_nil ?_ hstop hline.2
  have hfollows := h.toHolds.finishToken h.spelled stop
  rw [Reader.finishLine, Reading.takeWords?_words h.no_gap]
  generalize r.finishToken stop = x at hfollows
  generalize (if w = [] then some s else s.takeWord? w) = y at hfollows
  cases hfollows with
  | error => exact .error
  | @ok s' r' h' =>
    simp only [if_neg fun he => hline.1 (h'.line_eq.symm.trans he)]
    exact .ok ⟨h'.toHolds.change rfl rfl rfl rfl rfl, rfl, h'.token_eq,
      (h'.inWord h).headerBytes_eq⟩

/-- A byte of a clause line outside of gaps, given what the bytes after it come to. -/
theorem InWord.feedLine_cons (h : InWord w s r) (hends : endsLine b = false)
    (hgap : isGap b = false)
    (hline : r.line = .clause ∨ r.line = .start ∧ ¬ (b = 99 ∨ b = 112 ∨ b = 37))
    (hrest : ∀ {w s r}, InWord w s r → r.line = .clause →
      Follows AtStart (r.feedLine line stop) (s.takeWords? (words (w ++ line)))) :
    Follows AtStart (r.feedLine (b :: line) stop) (s.takeWords? (words (w ++ b :: line))) := by
  have hstep : r.step b = r.takeByte b := by
    unfold Reader.step
    rcases hline with hline | ⟨hline, -⟩ <;> simp only [hline]
  have hcons : w ++ b :: line = (w ++ [b]) ++ line := by simp
  have hgap' : ∀ x ∈ w ++ [b], isGap x = false := by
    intro x hx
    rcases List.mem_append.1 hx with hx | hx
    · exact h.no_gap x hx
    · rwa [List.mem_singleton.1 hx]
  -- the reader goes on with the word, or the word is refused
  have hgo : ∀ t, r.step b = ({ r with token := t, line := .clause }, .ok ()) →
      t.Spelled (w ++ [b]) →
      Follows AtStart (r.feedLine (b :: line) stop) (s.takeWords? (words (w ++ b :: line))) := by
    intro t ht hspelled
    rw [hcons, Reader.feedLine_cons_of_ok ht hends]
    exact hrest ⟨h.toHolds.change rfl rfl rfl rfl rfl, hspelled, hgap', h.headerBytes_eq⟩ rfl
  have hstop : ∀ r' e, r.step b = (r', .error e) → (∀ x, s.takeWord? (w ++ [b] ++ x) = none) →
      Follows AtStart (r.feedLine (b :: line) stop) (s.takeWords? (words (w ++ b :: line))) := by
    intro r' e he hnone
    rw [hcons, Reading.takeWords?_words_eq_none (by simp) hgap' hnone,
      Reader.feedLine_cons_of_error he]
    exact .error
  rw [hstep] at hgo hstop
  simp only [Reader.takeByte, hends, hgap, Bool.false_eq_true, if_false] at hgo hstop
  cases hdigit : digit? b with
  | some digit =>
    simp only [hdigit, Reader.addDigit_eq] at hgo hstop
    by_cases hmax : Var.maxNumber < r.token.value * 10 + digit
    · refine hstop _ _ (if_pos hmax) fun x => ?_
      rw [Reading.takeWord?, (h.spelled.digit hdigit).number?_append]
      cases hheader : s.header with
      | none => rfl
      | some header =>
        cases hvalue : appendDigits? (r.token.value * 10 + digit) x with
        | none => rfl
        | some n =>
          have hle := le_of_appendDigits? hvalue
          have hbound := h.header_le header hheader
          simp only [Option.map_some]
          refine if_neg ?_
          split <;> omega
    · exact hgo _ (if_neg hmax) (h.spelled.digit hdigit)
  | none =>
    simp only [hdigit] at hgo hstop
    by_cases hminus : b = 45 ∧ r.token = .idle
    · refine hgo .minus (if_pos hminus) ?_
      have hspelled := h.spelled
      rw [hminus.2] at hspelled
      rw [show w = [] from hspelled, hminus.1]
      rfl
    · have hmarks : ∀ P : Prop, (b = 99 ∨ b = 112 ∨ b = 37) ∧ r.line = .start → P := by
        intro P hb
        rcases hline with hline | ⟨-, hnot⟩
        · exact absurd (hline.symm.trans hb.2) (by decide)
        · exact absurd hb.1 hnot
      refine hstop r (.unexpectedInput r.lineNumber b) ?_ fun x => ?_
      · rw [if_neg hminus, if_neg fun hb => hmarks _ ⟨.inl hb.1, hb.2⟩,
          if_neg fun hb => hmarks _ ⟨.inr (.inl hb.1), hb.2.1⟩,
          if_neg fun hb => hmarks _ ⟨.inr (.inr hb.1), hb.2⟩]
      · rw [List.append_assoc]
        exact Reading.takeWord?_eq_none (h.spelled.number?_eq_none hdigit hminus x)

/-- The rest of a clause line. -/
theorem InWord.feedLine (h : InWord w s r) (hline : r.line = .clause) (hstop : endsLine stop = true)
    (hends : ∀ b ∈ line, endsLine b = false) :
    Follows AtStart (r.feedLine line stop) (s.takeWords? (words (w ++ line))) := by
  induction line generalizing w s r with
  | nil =>
    rw [List.append_nil]
    exact h.finishLine hstop (by rw [hline]; decide)
  | cons b line ih =>
    have hb := hends b List.mem_cons_self
    have hline' : ∀ x ∈ line, endsLine x = false := fun x hx => hends x (List.mem_cons_of_mem _ hx)
    by_cases hgap : isGap b = true
    · have hstep : r.step b = r.finishToken b := by
        simp only [Reader.step, hline, Reader.takeByte, hb, hgap, Bool.false_eq_true, if_false,
          if_true]
      have hfollows := h.toHolds.finishToken h.spelled b
      rw [← hstep, ← Reading.takeWords?_words h.no_gap] at hfollows
      rw [words_append_gap w line hgap, Reading.takeWords?_append]
      refine hfollows.feedLine_cons hb fun s' r' h' => ?_
      exact ih (h'.inWord h) (h'.line_eq.trans hline) hline'
    · exact h.feedLine_cons hb (by simpa using hgap) (.inl hline) fun h' hline => ih h' hline hline'

/-! ## Other lines -/

/-- The rest of a comment says nothing. -/
theorem InWord.feedLine_comment (h : InWord [] s r) (hline : r.line = .comment)
    (hstop : endsLine stop = true) (hends : ∀ b ∈ line, endsLine b = false) :
    Follows AtStart (r.feedLine line stop) (some s) := by
  induction line with
  | nil => exact h.finishLine hstop (by rw [hline]; decide)
  | cons b line ih =>
    have hb := hends b List.mem_cons_self
    have hstep : r.step b = (r, .ok ()) := by
      simp only [Reader.step, hline, hb, Bool.false_eq_true, if_false]
    rw [Reader.feedLine_cons_of_ok hstep hb]
    exact ih fun x hx => hends x (List.mem_cons_of_mem _ hx)

/-- The header line is complete. -/
theorem Holds.finishHeader (h : Holds s r) (hnone : s.header = none) (htoken : r.token = .idle) :
    Follows AtStart r.finishHeader (s.takeHeader? r.headerBytes.toList) := by
  rw [Reader.finishHeader, Header.ofBytes, Reading.takeHeader?, hnone]
  cases Header.ofText? (Utf8.decodeLossy r.headerBytes.toList) with
  | none => exact .error
  | some header =>
    by_cases hmax : Var.maxNumber < header.varCount
    · simp only [if_pos hmax]
      exact .error
    · simp only [if_neg hmax]
      have hzero : r.formula.varCount = 0 := by rw [h.varCount_eq, hnone]; rfl
      refine .ok ⟨⟨h.unfailed, rfl, ?_, h.reachable.raiseVarCount _, ?_, fun l hl => ?_,
        h.groups_eq, h.clauseCount_eq⟩, rfl, htoken, fun hheader => by cases hheader⟩
      · rintro _ ⟨⟩
        exact Nat.le_of_not_lt hmax
      · show max _ _ = header.varCount
        rw [hzero, Nat.zero_max]
      · exact Nat.le_trans (h.number_le l hl) (Nat.le_max_left _ _)

/-- The rest of a header line. -/
theorem Holds.feedLine_header (h : Holds s r) (hline : r.line = .header) (hnone : s.header = none)
    (htoken : r.token = .idle) (hstop : endsLine stop = true)
    (hends : ∀ b ∈ line, endsLine b = false) :
    Follows AtStart (r.feedLine line stop) (s.takeHeader? (r.headerBytes.toList ++ line)) := by
  induction line generalizing r with
  | nil =>
    have hfollows := h.finishHeader hnone htoken
    refine Follows.feedLine_nil ?_ hstop (by rw [hline]; decide)
    rw [List.append_nil]
    simp only [Reader.finishLine, Reader.finishToken, htoken, hline, if_pos]
    generalize r.finishHeader = x at hfollows
    generalize s.takeHeader? r.headerBytes.toList = y at hfollows
    cases hfollows with
    | error => exact .error
    | ok h' =>
      exact .ok ⟨h'.toHolds.change rfl rfl rfl rfl rfl, rfl, h'.token_eq, h'.headerBytes_eq⟩
  | cons b line ih =>
    have hb := hends b List.mem_cons_self
    have hstep : r.step b = ({ r with headerBytes := r.headerBytes.push b }, .ok ()) := by
      simp only [Reader.step, hline, hb, Bool.false_eq_true, if_false]
    rw [Reader.feedLine_cons_of_ok hstep hb]
    have hrest := ih (r := { r with headerBytes := r.headerBytes.push b })
      (h.change rfl rfl rfl rfl rfl) hline htoken fun x hx => hends x (List.mem_cons_of_mem _ hx)
    simpa using hrest

theorem AtStart.inWord (h : AtStart s r) : InWord [] s r :=
  ⟨h.toHolds, by rw [h.token_eq]; rfl, by simp, h.headerBytes_eq⟩

/-- A gap at the start of a line has no part in it. -/
theorem Reading.takeLine?_gap (hb : isGap b = true) :
    s.takeLine? (b :: line) = s.takeLine? line := by
  have hcontent : content (b :: line) = content line := by
    rw [content, List.dropWhile_cons_of_pos hb]
    rfl
  have hwords : words (b :: line) = words line := words_append_gap [] line hb
  rw [Reading.takeLine?, Reading.takeLine?, LineKind.ofLine, LineKind.ofLine, hcontent, hwords]

/-- A comment, read from its start. -/
theorem AtStart.feedLine_comment (h : AtStart s r) (hstop : endsLine stop = true)
    (hends : ∀ b ∈ line, endsLine b = false) :
    Follows AtStart (r.feedLine (99 :: line) stop) (some s) := by
  have hstep : r.step 99 = ({ r with line := .comment }, .ok ()) := by
    simp only [Reader.step, Reader.takeByte, h.line_eq, h.token_eq]
    rfl
  rw [Reader.feedLine_cons_of_ok hstep rfl]
  exact InWord.feedLine_comment ⟨h.toHolds.change rfl rfl rfl rfl rfl, h.inWord.spelled,
    h.inWord.no_gap, h.headerBytes_eq⟩ rfl hstop hends

/-- A header, read from its start. -/
theorem AtStart.feedLine_header (h : AtStart s r) (hstop : endsLine stop = true)
    (hends : ∀ b ∈ line, endsLine b = false) :
    Follows AtStart (r.feedLine (112 :: line) stop) (s.takeHeader? (112 :: line)) := by
  cases hheader : s.header with
  | some header =>
    -- a second header is refused
    have hstep : r.step 112 = (r, .error (.unexpectedInput r.lineNumber 112)) := by
      simp only [Reader.step, Reader.takeByte, h.line_eq, h.token_eq, h.header_eq, hheader]
      rfl
    rw [Reading.takeHeader?, hheader, Reader.feedLine_cons_of_error hstep]
    exact .error
  | none =>
    have hbytes := h.headerBytes_eq hheader
    have hstep : r.step 112 = ({ r with line := .header, headerBytes := #[112] }, .ok ()) := by
      simp only [Reader.step, Reader.takeByte, h.line_eq, h.token_eq, h.header_eq, hheader, hbytes]
      rfl
    rw [Reader.feedLine_cons_of_ok hstep rfl]
    exact Holds.feedLine_header (h.toHolds.change rfl rfl rfl rfl rfl) rfl hheader h.token_eq hstop
      hends

/-- A line, read from its start. -/
theorem AtStart.feedLine (h : AtStart s r) (hstop : endsLine stop = true)
    (hends : ∀ b ∈ line, endsLine b = false) (hkind : LineKind.ofLine line ≠ .trailer) :
    Follows AtStart (r.feedLine line stop) (s.takeLine? line) := by
  induction line with
  | nil => exact h.inWord.finishLine hstop (by rw [h.line_eq]; decide)
  | cons b line ih =>
    have hb := hends b List.mem_cons_self
    have hline' : ∀ x ∈ line, endsLine x = false := fun x hx => hends x (List.mem_cons_of_mem _ hx)
    have hstep : r.step b = r.takeByte b := by simp only [Reader.step, h.line_eq]
    by_cases hgap : isGap b = true
    · have hsame : r.step b = (r, .ok ()) := by
        simp only [hstep, Reader.takeByte, hb, hgap, Bool.false_eq_true, if_false, if_true,
          Reader.finishToken, h.token_eq]
      rw [Reading.takeLine?_gap hgap, Reader.feedLine_cons_of_ok hsame hb]
      refine ih hline' ?_
      rwa [LineKind.ofLine, content, List.dropWhile_cons_of_pos hgap] at hkind
    · have hcontent : content (b :: line) = b :: line := List.dropWhile_cons_of_neg hgap
      have hgap : isGap b = false := by simpa using hgap
      rw [LineKind.ofLine, hcontent] at hkind
      simp only [Reading.takeLine?, LineKind.ofLine, hcontent]
      by_cases hcomment : b = 99
      · subst hcomment
        exact h.feedLine_comment hstop hline'
      · by_cases hheader : b = 112
        · subst hheader
          exact h.feedLine_header hstop hline'
        · have htrailer : b ≠ 37 := by
            rintro rfl
            exact hkind rfl
          simp only [if_neg hcomment, if_neg hheader, if_neg htrailer]
          refine h.inWord.feedLine_cons hb hgap (.inr ⟨h.line_eq, by simp [*]⟩) ?_
          exact fun h' hline => h'.feedLine hline hstop hline'

end

end BucketElimination.Dimacs
