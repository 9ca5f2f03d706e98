import Mathlib.Data.List.TakeWhile
import BucketElimination.Dimacs.Writer
import BucketElimination.Proofs.Acceptance
set_option autoImplicit false

/-!
# Reading what was written

A written formula is an input of the grammar: its first line declares the counts of the formula, and
each further line spells the literals of one clause and a zero.  So reading returns the formula that
was written, with its clauses and their literals in the same order.  A formula with more variables
than there are can be written, but its header is refused.
-/

namespace BucketElimination

/-! ## Written numbers -/

namespace Decimal

/-- What sets the digits of numbers apart from the other bytes of an input. -/
structure IsDigitByte (b : UInt8) : Prop where
  not_endsLine : Dimacs.endsLine b = false
  not_isGap : Dimacs.isGap b = false
  lt : b < 128
  ne_minus : b ≠ 45
  ne_comment : b ≠ 99
  ne_header : b ≠ 112
  ne_trailer : b ≠ 37
  not_isBlank : isBlank (Dimacs.latin1 b) = false
  ne_plus : Dimacs.latin1 b ≠ '+'

theorem isDigitByte {d : Nat} (hd : d < 10) : IsDigitByte (digitByte d) := by
  constructor <;> (revert d; decide)

theorem digit?_digitByte {d : Nat} (hd : d < 10) :
    Dimacs.digit? (digitByte d) = some d ∧ digit? (Dimacs.latin1 (digitByte d)) = some d := by
  revert d
  decide

theorem isDigitByte_of_mem_bytes {n : Nat} {b : UInt8} (hb : b ∈ bytes n) : IsDigitByte b := by
  fun_induction bytes n with
  | case1 n hlt =>
    rw [List.mem_singleton] at hb
    rw [hb]
    exact isDigitByte hlt
  | case2 n hge ih =>
    rw [List.mem_append, List.mem_singleton] at hb
    rcases hb with hb | hb
    · exact ih hb
    · rw [hb]
      exact isDigitByte (Nat.mod_lt n (by decide))

/-- A number has a first digit, and digits after it. -/
theorem bytes_eq_cons (n : Nat) : ∃ b rest, bytes n = b :: rest ∧ IsDigitByte b ∧
    ∀ x ∈ rest, IsDigitByte x := by
  have hall : ∀ b ∈ bytes n, IsDigitByte b := fun b hb => isDigitByte_of_mem_bytes hb
  have hne : bytes n ≠ [] := by
    rw [bytes]
    split
    · exact List.cons_ne_nil _ _
    · exact List.append_ne_nil_of_right_ne_nil _ (List.cons_ne_nil _ _)
  obtain ⟨b, rest, hbytes⟩ := List.exists_cons_of_ne_nil hne
  rw [hbytes, List.forall_mem_cons] at hall
  exact ⟨b, rest, hbytes, hall⟩

/-- The digits of a number spell it. -/
theorem magnitude?_bytes (n : Nat) : Dimacs.magnitude? (bytes n) = some n := by
  have happend : Dimacs.appendDigits? 0 (bytes n) = some n := by
    fun_induction bytes n with
    | case1 n hlt =>
      rw [Dimacs.appendDigits?_cons, (digit?_digitByte hlt).1]
      simp [Dimacs.appendDigits?]
    | case2 n hge ih =>
      have hmod := Nat.mod_lt n (show 0 < 10 by decide)
      have hsum : n / 10 * 10 + n % 10 = n := Nat.div_add_mod' n 10
      rw [Dimacs.appendDigits?_append, ih, Option.bind_some, Dimacs.appendDigits?_cons,
        (digit?_digitByte hmod).1, Option.bind_some, hsum]
      rfl
  obtain ⟨b, rest, hbytes, -⟩ := bytes_eq_cons n
  rw [Dimacs.magnitude?, if_neg (by simp [hbytes]), happend]

theorem number?_intBytes (n : Int) : Dimacs.number? (intBytes n) = some n := by
  rw [intBytes]
  split
  · rw [Dimacs.number?_minus, magnitude?_bytes, Option.map_some]
    congr 1
    omega
  · rw [Dimacs.number?_of_ne, magnitude?_bytes, Option.map_some]
    · congr 1
      omega
    · intro rest hrest
      obtain ⟨b, digits, hbytes, hb, -⟩ := bytes_eq_cons n.natAbs
      rw [hbytes] at hrest
      exact hb.ne_minus (List.cons.inj hrest).1

/-- An integer begins with a minus sign or a digit, and goes on with digits. -/
theorem intBytes_eq_cons (n : Int) : ∃ b rest, intBytes n = b :: rest ∧
    (b = 45 ∨ IsDigitByte b) ∧ ∀ x ∈ rest, IsDigitByte x := by
  rw [intBytes]
  split
  · exact ⟨45, bytes n.natAbs, rfl, .inl rfl, fun x hx => isDigitByte_of_mem_bytes hx⟩
  · obtain ⟨b, rest, hbytes, hb, hrest⟩ := bytes_eq_cons n.natAbs
    exact ⟨b, rest, hbytes, .inr hb, hrest⟩

theorem appendDigits?_append (value : Nat) (cs more : List Char) :
    appendDigits? value (cs ++ more) =
      (appendDigits? value cs).bind fun value => appendDigits? value more := by
  induction cs generalizing value with
  | nil => rfl
  | cons c cs ih =>
    rw [List.cons_append, appendDigits?, appendDigits?]
    cases digit? c with
    | none => rfl
    | some d => exact ih _

theorem count?_of_ne_plus {c : Char} (hc : c ≠ '+') (cs : List Char) :
    count? (c :: cs) =
      (appendDigits? 0 (c :: cs)).bind fun n => if n < countBound then some n else none := by
  unfold count?
  split
  · rename_i heq
    exact absurd (List.cons.inj heq).1 hc
  · simp only [ofDigits?]
    cases appendDigits? 0 (c :: cs) <;> rfl

/-- A count that fits a word is read back from its digits. -/
theorem count?_map_bytes {n : Nat} (hn : n < countBound) :
    count? ((bytes n).map Dimacs.latin1) = some n := by
  have happend : appendDigits? 0 ((bytes n).map Dimacs.latin1) = some n := by
    clear hn
    fun_induction bytes n with
    | case1 n hlt =>
      rw [List.map_singleton, appendDigits?, (digit?_digitByte hlt).2]
      simp [appendDigits?]
    | case2 n hge ih =>
      have hmod := Nat.mod_lt n (show 0 < 10 by decide)
      have hsum : n / 10 * 10 + n % 10 = n := Nat.div_add_mod' n 10
      rw [List.map_append, appendDigits?_append, ih, Option.bind_some, List.map_singleton,
        appendDigits?, (digit?_digitByte hmod).2]
      simp only [hsum, appendDigits?]
  obtain ⟨b, rest, hbytes, hb, -⟩ := bytes_eq_cons n
  rw [hbytes, List.map_cons] at happend ⊢
  rw [count?_of_ne_plus hb.ne_plus, happend, Option.bind_some, if_pos hn]

end Decimal

/-! ## The text of a header -/

/-- Bytes below 128 are characters as they are. -/
theorem Utf8.decodeLossy_of_lt {bytes : List UInt8} (h : ∀ b ∈ bytes, b < 128) :
    decodeLossy bytes = bytes.map Dimacs.latin1 := by
  induction bytes with
  | nil => rw [decodeLossy, List.map_nil]
  | cons b bytes ih =>
    rw [List.forall_mem_cons] at h
    have hlead : lead? b = some ⟨0, 0x80, 0xBF, b.toNat⟩ := if_pos h.1
    have hnext : next b bytes = (some (Dimacs.latin1 b), 0) := by
      simp only [next, hlead, follow, Option.map_some]
      rfl
    rw [decodeLossy, hnext, List.map_cons, List.drop_zero, ih h.2, Option.getD_some]

/-- A word with a blank after it is a field. -/
theorem fieldsFrom_append {word : List Char} (h : ∀ c ∈ word, isBlank c = false)
    (field more : List Char) :
    fieldsFrom field (word ++ more) = fieldsFrom (word.reverse ++ field) more := by
  induction word generalizing field with
  | nil => rfl
  | cons c word ih =>
    rw [List.forall_mem_cons] at h
    rw [List.cons_append, fieldsFrom, h.1, if_neg Bool.false_ne_true, ih h.2, List.reverse_cons,
      List.append_assoc, List.singleton_append]

theorem fields_append {word : List Char} (hne : word ≠ []) (h : ∀ c ∈ word, isBlank c = false)
    {c : Char} (hc : isBlank c = true) (more : List Char) :
    fields (word ++ c :: more) = word :: fields more := by
  rw [fields, fieldsFrom_append h, List.append_nil, fieldsFrom, if_pos hc]
  simp [hne, fields]

theorem fields_of_no_blank {word : List Char} (hne : word ≠ [])
    (h : ∀ c ∈ word, isBlank c = false) : fields word = [word] := by
  have happend := fieldsFrom_append h [] []
  rw [List.append_nil, List.append_nil] at happend
  rw [fields, happend, fieldsFrom]
  simp [hne]

namespace Dimacs

/-- The line of a header without the line feed. -/
def Header.line (header : Header) : List UInt8 :=
  112 :: 32 :: 99 :: 110 :: 102 :: 32 :: Decimal.bytes header.varCount ++
    32 :: Decimal.bytes header.clauseCount

theorem Header.bytes_eq (header : Header) : header.bytes = header.line ++ [lineFeed] := by
  have hascii : ascii "p cnf " = [112, 32, 99, 110, 102, 32] := by decide
  simp [Header.bytes, Header.line, hascii]

theorem Header.forall_mem_line {P : UInt8 → Prop} (header : Header)
    (hdigit : ∀ b, Decimal.IsDigitByte b → P b)
    (hword : ∀ b ∈ ([112, 32, 99, 110, 102, 32] : List UInt8), P b) : ∀ b ∈ header.line, P b := by
  have hdigits : ∀ n, ∀ b ∈ Decimal.bytes n, P b := fun n b hb =>
    hdigit b (Decimal.isDigitByte_of_mem_bytes hb)
  simp only [List.forall_mem_cons] at hword
  simp only [Header.line, List.cons_append, List.forall_mem_cons, List.forall_mem_append]
  exact ⟨hword.1, hword.2.1, hword.2.2.1, hword.2.2.2.1, hword.2.2.2.2.1, hword.2.1, hdigits _,
    hword.2.1, hdigits _⟩

/-- Counts that fit words are read back from the line of their header. -/
theorem Header.fields_line (header : Header) :
    fields (Utf8.decodeLossy header.line) = [['p'], ['c', 'n', 'f'],
      (Decimal.bytes header.varCount).map latin1, (Decimal.bytes header.clauseCount).map latin1] := by
  have hascii : ∀ b ∈ header.line, b < 128 := by
    apply header.forall_mem_line (P := fun b => b < 128)
    · intro b hb
      exact hb.lt
    · simp only [List.mem_cons, List.not_mem_nil, or_false, forall_eq_or_imp, forall_eq]
      decide
  have hdigits : ∀ n, (Decimal.bytes n).map latin1 ≠ [] ∧
      ∀ c ∈ (Decimal.bytes n).map latin1, isBlank c = false := by
    intro n
    obtain ⟨b, rest, hbytes, -⟩ := Decimal.bytes_eq_cons n
    refine ⟨by simp [hbytes], ?_⟩
    intro c hc
    obtain ⟨b, hb, rfl⟩ := List.mem_map.1 hc
    exact (Decimal.isDigitByte_of_mem_bytes hb).not_isBlank
  have hp : ∀ c ∈ ['p'], isBlank c = false := List.forall_mem_singleton.2 (by decide)
  have hcnf : ∀ c ∈ ['c', 'n', 'f'], isBlank c = false := by
    simp only [List.mem_cons, List.not_mem_nil, or_false, forall_eq_or_imp, forall_eq]
    decide
  have htext : header.line.map latin1 = ['p'] ++ ' ' :: (['c', 'n', 'f'] ++
      ' ' :: ((Decimal.bytes header.varCount).map latin1 ++
        ' ' :: (Decimal.bytes header.clauseCount).map latin1)) := by
    simp [Header.line, latin1]
  rw [Utf8.decodeLossy_of_lt hascii, htext, fields_append (by decide) hp (by decide),
    fields_append (by decide) hcnf (by decide),
    fields_append (hdigits _).1 (hdigits _).2 (by decide),
    fields_of_no_blank (hdigits _).1 (hdigits _).2]

theorem Header.ofText?_line {header : Header} (hvars : header.varCount < Decimal.countBound)
    (hclauses : header.clauseCount < Decimal.countBound) :
    ofText? (Utf8.decodeLossy header.line) = some header :=
  ofText?_eq_some_iff.2 ⟨_, _, header.fields_line, Decimal.count?_map_bytes hvars,
    Decimal.count?_map_bytes hclauses⟩

/-! ## The lines of a written formula -/

/-- The line of a clause without the line feed. -/
def clauseLine (lits : List Lit) : List UInt8 := lits.flatMap litBytes ++ [48]

theorem clauseBytes_eq (lits : List Lit) : clauseBytes lits = clauseLine lits ++ [lineFeed] := by
  rw [clauseBytes, clauseLine, List.append_assoc]
  rfl

/-- No byte of a written integer ends a line or is a gap. -/
theorem of_mem_intBytes {n : Int} {b : UInt8} (hb : b ∈ Decimal.intBytes n) :
    endsLine b = false ∧ isGap b = false := by
  obtain ⟨first, rest, hbytes, hfirst, hrest⟩ := Decimal.intBytes_eq_cons n
  rw [hbytes, List.mem_cons] at hb
  rcases hb with rfl | hb
  · rcases hfirst with rfl | hfirst
    · decide
    · exact ⟨hfirst.not_endsLine, hfirst.not_isGap⟩
  · exact ⟨(hrest b hb).not_endsLine, (hrest b hb).not_isGap⟩

theorem endsLine_of_mem_clauseLine {lits : List Lit} {b : UInt8} (hb : b ∈ clauseLine lits) :
    endsLine b = false := by
  rw [clauseLine, List.mem_append, List.mem_flatMap] at hb
  rcases hb with ⟨l, -, hb⟩ | hb
  · rw [litBytes, List.mem_append, List.mem_singleton] at hb
    rcases hb with hb | rfl
    · exact (of_mem_intBytes hb).1
    · rfl
  · rw [List.mem_singleton.1 hb]
    rfl

/-- The words of a clause line are its literals and a zero. -/
theorem words_clauseLine (lits : List Lit) :
    words (clauseLine lits) = lits.map (fun l => Decimal.intBytes l.toInt) ++ [[48]] := by
  induction lits with
  | nil => rfl
  | cons l lits ih =>
    have hgap : ∀ b ∈ Decimal.intBytes l.toInt, isGap b = false := fun b hb =>
      (of_mem_intBytes hb).2
    have hne : Decimal.intBytes l.toInt ≠ [] := by
      obtain ⟨b, rest, hbytes, -⟩ := Decimal.intBytes_eq_cons l.toInt
      simp [hbytes]
    have hline : clauseLine (l :: lits) = Decimal.intBytes l.toInt ++ 32 :: clauseLine lits := by
      simp [clauseLine, litBytes]
    rw [hline, words_append_gap _ _ (by decide), ih, words_of_no_gap hgap, if_neg hne,
      List.map_cons, List.singleton_append, List.cons_append]

/-- A line that begins with a sign or a digit is a clause line. -/
theorem LineKind.ofLine_of_sign {b : UInt8} (hb : b = 45 ∨ Decimal.IsDigitByte b)
    (rest : List UInt8) : LineKind.ofLine (b :: rest) = .clause := by
  rcases hb with rfl | hb
  · rfl
  · have hcontent : content (b :: rest) = b :: rest :=
      List.dropWhile_cons_of_neg (by rw [hb.not_isGap]; decide)
    simp only [LineKind.ofLine, hcontent, if_neg hb.ne_comment, if_neg hb.ne_header,
      if_neg hb.ne_trailer]

theorem LineKind.ofLine_clauseLine (lits : List Lit) :
    LineKind.ofLine (clauseLine lits) = .clause := by
  cases lits with
  | nil => rfl
  | cons l lits =>
    obtain ⟨b, rest, hbytes, hb, -⟩ := Decimal.intBytes_eq_cons l.toInt
    have hline : clauseLine (l :: lits) = b :: (rest ++ 32 :: clauseLine lits) := by
      simp [clauseLine, litBytes, hbytes]
    rw [hline]
    exact ofLine_of_sign hb _

theorem lines_append {line : List UInt8} (h : ∀ b ∈ line, endsLine b = false)
    (more : List UInt8) : lines (line ++ lineFeed :: more) = line :: lines more :=
  List.splitOnP_append_cons_of_forall_mem h lineFeed rfl more

theorem lines_clausesBytes (clauses : List (List Lit)) :
    lines (clausesBytes clauses) = clauses.map clauseLine ++ [[]] := by
  induction clauses with
  | nil => rfl
  | cons lits clauses ih =>
    have hbytes : clausesBytes (lits :: clauses) =
        clauseLine lits ++ lineFeed :: clausesBytes clauses := by
      rw [clausesBytes, List.flatMap_cons, clauseBytes_eq, List.append_assoc]
      rfl
    rw [hbytes, lines_append fun b hb => endsLine_of_mem_clauseLine hb, ih]
    rfl

theorem Header.endsLine_of_mem_line {header : Header} {b : UInt8} (hb : b ∈ header.line) :
    endsLine b = false := by
  revert b
  apply header.forall_mem_line (P := fun b => endsLine b = false)
  · intro b hb
    exact hb.not_endsLine
  · simp only [List.mem_cons, List.not_mem_nil, or_false, forall_eq_or_imp, forall_eq]
    decide

theorem write_eq (F : Formula) :
    write F = Header.line ⟨F.varCount, F.size⟩ ++ lineFeed :: clausesBytes F.clauses := by
  rw [write, Header.bytes_eq, List.append_assoc]
  rfl

theorem countedLines_write (F : Formula) :
    countedLines (write F) =
      Header.line ⟨F.varCount, F.size⟩ :: (F.clauses.map clauseLine ++ [[]]) := by
  have hlines : lines (write F) =
      Header.line ⟨F.varCount, F.size⟩ :: (F.clauses.map clauseLine ++ [[]]) := by
    rw [write_eq, lines_append fun b hb => Header.endsLine_of_mem_line hb, lines_clausesBytes]
  rw [countedLines, hlines, List.takeWhile_eq_self_iff]
  intro line hline
  rw [List.mem_cons, List.mem_append, List.mem_singleton] at hline
  rcases hline with rfl | hline | rfl
  · rfl
  · obtain ⟨lits, -, rfl⟩ := List.mem_map.1 hline
    rw [LineKind.ofLine_clauseLine]
    rfl
  · rfl

/-! ## The numbers of a written formula -/

/-- The literals of the clauses, with a zero after each clause. -/
def numbersOf (clauses : List (List Lit)) : List Int :=
  clauses.flatMap fun lits => lits.map Lit.toInt ++ [0]

theorem numbersOf_cons (lits : List Lit) (clauses : List (List Lit)) :
    numbersOf (lits :: clauses) = lits.map Lit.toInt ++ 0 :: numbersOf clauses := by
  simp [numbersOf]

theorem mapM_number?_clauseLine (lits : List Lit) :
    (words (clauseLine lits)).mapM number? = some (lits.map Lit.toInt ++ [0]) := by
  rw [words_clauseLine]
  induction lits with
  | nil => rfl
  | cons l lits ih =>
    rw [List.map_cons, List.cons_append, List.mapM_cons, Decimal.number?_intBytes, ih]
    rfl

theorem mapM_number?_clauses (clauses : List (List Lit)) :
    (clauseWords (clauses.map clauseLine ++ [[]])).mapM number? = some (numbersOf clauses) := by
  induction clauses with
  | nil => rfl
  | cons lits clauses ih =>
    have hwords : clauseWords ((lits :: clauses).map clauseLine ++ [[]]) =
        words (clauseLine lits) ++ clauseWords (clauses.map clauseLine ++ [[]]) := by
      simp [clauseWords, LineKind.ofLine_clauseLine]
    rw [hwords, List.mapM_append, mapM_number?_clauseLine, ih]
    rfl

theorem splitOnP_numbersOf (clauses : List (List Lit)) :
    (numbersOf clauses).splitOnP (· == 0) = clauses.map (·.map Lit.toInt) ++ [[]] := by
  induction clauses with
  | nil => rfl
  | cons lits clauses ih =>
    have hzero : ∀ n ∈ lits.map Lit.toInt, (n == 0) = false := by
      intro n hn
      obtain ⟨l, -, rfl⟩ := List.mem_map.1 hn
      simpa using toInt_ne_zero l
    rw [numbersOf_cons, List.splitOnP_append_cons_of_forall_mem hzero 0 rfl, ih]
    rfl

theorem count_numbersOf (clauses : List (List Lit)) :
    (numbersOf clauses).count 0 = clauses.length := by
  induction clauses with
  | nil => rfl
  | cons lits clauses ih =>
    have hzero : (lits.map Lit.toInt).count 0 = 0 := by
      rw [List.count_eq_zero]
      intro hmem
      obtain ⟨l, -, hl⟩ := List.mem_map.1 hmem
      exact toInt_ne_zero l hl
    rw [numbersOf_cons, List.count_append, hzero, List.count_cons_self, ih, List.length_cons,
      Nat.zero_add]

/-- A formula with no more variables than there are is written as an input of the grammar. -/
theorem describes_write {F : Formula} (hF : F.Reachable) (hmax : F.varCount ≤ Var.maxNumber)
    (hsize : F.size < Decimal.countBound) :
    Describes (write F) ⟨F.varCount, F.size⟩ (numbersOf F.clauses) where
  layout := by
    have hvars : F.varCount < Decimal.countBound := Nat.lt_of_le_of_lt hmax (by decide)
    have hkind : LineKind.ofLine (Header.line ⟨F.varCount, F.size⟩) = .header := rfl
    refine ⟨[], Header.line ⟨F.varCount, F.size⟩, F.clauses.map clauseLine ++ [[]],
      countedLines_write F, ⟨hkind, ?_, hmax⟩, by simp, ?_⟩
    · exact Header.ofText?_eq_some_iff.1 (Header.ofText?_line hvars hsize)
    · intro other hother
      rw [List.mem_append, List.mem_singleton] at hother
      rcases hother with hother | rfl
      · obtain ⟨lits, -, rfl⟩ := List.mem_map.1 hother
        rw [LineKind.ofLine_clauseLine]
        decide
      · decide
  words_eq := by
    rw [countedLines_write]
    exact mapM_number?_clauses F.clauses
  natAbs_le := by
    intro n hn
    obtain ⟨lits, hlits, hn⟩ := List.mem_flatMap.1 hn
    rw [List.mem_append, List.mem_singleton] at hn
    rcases hn with hn | rfl
    · obtain ⟨l, hl, rfl⟩ := List.mem_map.1 hn
      rw [natAbs_toInt]
      exact hF.wellFormed.number_le_of_mem hlits hl
    · exact Nat.zero_le _
  count_zero := by rw [count_numbersOf, Formula.length_clauses]
  closed := (getLast_splitOnP_eq_nil_iff (splitOnP_numbersOf F.clauses).symm).1 rfl

/-! ## A header that is refused -/

/-- The error of a header line is reported when the line ends, whatever follows. -/
theorem Reader.feedBytes_header {r : Reader} {line : List UInt8} {e : Error}
    (hline : r.line = .header) (htoken : r.token = .idle)
    (hends : ∀ b ∈ line, endsLine b = false)
    (he : Header.ofBytes r.lineNumber (r.headerBytes.toList ++ line) = .error e)
    (more : List UInt8) : (r.feedBytes (line ++ lineFeed :: more)).2 = .error e := by
  induction line generalizing r with
  | nil =>
    rw [List.append_nil] at he
    have hstep : r.step lineFeed = (r, .error e) := by
      rw [Reader.step_lineFeed (by rw [hline]; decide)]
      simp only [Reader.finishLine, Reader.finishToken, htoken, hline, if_true, Reader.finishHeader,
        he]
    rw [List.nil_append, Reader.feedBytes, hstep]
  | cons b line ih =>
    rw [List.forall_mem_cons] at hends
    have hstep : r.step b = ({ r with headerBytes := r.headerBytes.push b }, .ok ()) := by
      simp only [Reader.step, hline, hends.1, Bool.false_eq_true, if_false]
    rw [List.cons_append, Reader.feedBytes, hstep]
    simp only [Reader.countLine_of_not_endsLine hends.1]
    apply ih
    · exact hline
    · exact htoken
    · exact hends.2
    · simpa using he

/-- With more variables than there are, the header of a written formula is refused. -/
theorem feedBytes_write_of_lt {F : Formula} (hmax : Var.maxNumber < F.varCount)
    (hvars : F.varCount < Decimal.countBound) (hsize : F.size < Decimal.countBound) :
    (Reader.start.feedBytes (write F)).2 = .error (.varCountTooLarge 1 F.varCount) := by
  obtain ⟨rest, hrest⟩ : ∃ rest, Header.line ⟨F.varCount, F.size⟩ = 112 :: rest := ⟨_, rfl⟩
  have hends : ∀ b ∈ 112 :: rest, endsLine b = false := by
    rw [← hrest]
    exact fun b hb => Header.endsLine_of_mem_line hb
  have hrefused : Header.ofBytes 1 (112 :: rest) = .error (.varCountTooLarge 1 F.varCount) := by
    rw [← hrest, Header.ofBytes, Header.ofText?_line hvars hsize]
    exact if_pos hmax
  have hstep : Reader.start.step 112 =
      ({ Reader.start with line := .header, headerBytes := #[112] }, .ok ()) := rfl
  rw [write_eq, hrest, List.cons_append, Reader.feedBytes, hstep]
  rw [List.forall_mem_cons] at hends
  apply Reader.feedBytes_header
  · rfl
  · rfl
  · exact hends.2
  · exact hrefused

/-! ## Reading and writing -/

/-- A formula with no more variables than there are is read back. -/
theorem read_of_flatten_eq_write {F : Formula} (hF : F.Reachable) (hmax : F.varCount ≤ Var.maxNumber)
    (hsize : F.size < Decimal.countBound) {parts : List (List UInt8)}
    (hparts : parts.flatten = write F) : read (parts.map .data) = .ok F := by
  refine read_eq_ok_iff.2 ⟨hF, ⟨F.varCount, F.size⟩, numbersOf F.clauses, ?_, rfl, ?_⟩
  · rw [hparts]
    exact describes_write hF hmax hsize
  · rw [groups, splitOnP_numbersOf, List.dropLast_concat]

/-- What was written is read back, in whatever parts it comes: the formula itself if it has no more
variables than there are, and otherwise the error of its header.  The counts of a formula are words. -/
theorem read_write {F : Formula} (hF : F.Reachable) (hvars : F.varCount < Decimal.countBound)
    (hsize : F.size < Decimal.countBound) {parts : List (List UInt8)}
    (hparts : parts.flatten = write F) :
    read (parts.map .data) =
      if F.varCount ≤ Var.maxNumber then .ok F
      else .error (.refused (.varCountTooLarge 1 F.varCount)) := by
  split
  · rename_i hmax
    exact read_of_flatten_eq_write hF hmax hsize hparts
  · rename_i hmax
    have hfeed := feedBytes_write_of_lt (Nat.lt_of_not_le hmax) hvars hsize
    rw [read_data, hparts]
    rcases hrun : Reader.start.feedBytes (write F) with ⟨r, result⟩
    rw [hrun] at hfeed
    cases hfeed
    rfl

/-- A clause that repeats the last variable, and a clause without literals. -/
def lastVarFormula : Formula :=
  Formula.ofClauses [[⟨Var.last, .negative⟩, ⟨default, .positive⟩, ⟨Var.last, .negative⟩], []]

theorem reachable_lastVarFormula : lastVarFormula.Reachable := .addClause _ (.addClause _ .empty)

/-- The theorem on this formula, as it is and with one variable more than there are. -/
theorem read_write_lastVarFormula :
    read [.data (write lastVarFormula)] = .ok lastVarFormula ∧
      read [.data (write (lastVarFormula.raiseVarCount (Var.maxNumber + 1)))] =
        .error (.refused (.varCountTooLarge 1 (Var.maxNumber + 1))) := by
  have hraised : (lastVarFormula.raiseVarCount (Var.maxNumber + 1)).Reachable :=
    .raiseVarCount _ reachable_lastVarFormula
  have hwhole : ∀ F, [write F].flatten = write F := fun F => List.append_nil _
  constructor
  · exact read_write reachable_lastVarFormula (by decide) (by decide) (hwhole _)
  · exact read_write hraised (by decide) (by decide) (hwhole _)

end Dimacs

end BucketElimination
