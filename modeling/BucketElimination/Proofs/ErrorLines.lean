import BucketElimination.Dimacs.Writer
import BucketElimination.Proofs.CutInputs
import BucketElimination.Proofs.ReaderRange
set_option autoImplicit false

/-!
# Error lines: an error names the line on which reading stopped

An input that cannot be read is refused at one of its bytes, or only at its end.  In the first case
the error names the line on which this byte stands, also if the byte is the line feed that ends the
line; in the second case it names the last line.  Where the input was cut does not matter, nor that
a number or a header is judged only after it has ended.
-/

namespace BucketElimination.Dimacs

/-- The shortest beginning of an input that is refused ends with the byte at `offset`. -/
def RefusedAt (bytes : List UInt8) (offset : Nat) : Prop :=
  (∀ n ≤ offset, (Reader.start.feedBytes (bytes.take n)).2 = .ok ()) ∧
    ∃ e, (Reader.start.feedBytes (bytes.take (offset + 1))).2 = .error e

/-- What comes before accepted bytes was accepted. -/
theorem Reader.feedBytes_ok_of_append {r : Reader} {bytes more : List UInt8}
    (h : (r.feedBytes (bytes ++ more)).2 = .ok ()) : (r.feedBytes bytes).2 = .ok () := by
  rw [feedBytes_append] at h
  rcases hrun : r.feedBytes bytes with ⟨r', e | done⟩
  · rw [hrun] at h
    cases h
  · rfl

namespace RefusedAt

variable {bytes : List UInt8} {offset offset' : Nat}

theorem not_lt (h : RefusedAt bytes offset) (h' : RefusedAt bytes offset') :
    ¬ offset < offset' := by
  intro hlt
  obtain ⟨-, e, hrefused⟩ := h
  have haccepted := h'.1 (offset + 1) hlt
  rw [hrefused] at haccepted
  cases haccepted

theorem unique (h : RefusedAt bytes offset) (h' : RefusedAt bytes offset') : offset = offset' :=
  Nat.le_antisymm (Nat.le_of_not_lt (h'.not_lt h)) (Nat.le_of_not_lt (h.not_lt h'))

/-- An input with a beginning that is refused is refused. -/
theorem exists_error (h : RefusedAt bytes offset) :
    ∃ r e, Reader.start.feedBytes bytes = (r, .error e) := by
  rcases hrun : Reader.start.feedBytes bytes with ⟨r, e | done⟩
  · exact ⟨r, e, rfl⟩
  · obtain ⟨-, e, hrefused⟩ := h
    have hall : (Reader.start.feedBytes
        (bytes.take (offset + 1) ++ bytes.drop (offset + 1))).2 = .ok () := by
      rw [List.take_append_drop, hrun]
    have haccepted := Reader.feedBytes_ok_of_append hall
    rw [hrefused] at haccepted
    cases haccepted

end RefusedAt

/-- A refused input is refused at one of its bytes, and the error names its line. -/
theorem exists_refusedAt_of_error {bytes : List UInt8} {r : Reader} {e : Error}
    (hrun : Reader.start.feedBytes bytes = (r, .error e)) :
    ∃ offset, RefusedAt bytes offset ∧ e.line? = some (1 + (bytes.take offset).count lineFeed) := by
  obtain ⟨before, b, after, rfl, haccepted, hrefused, hline⟩ :=
    Reader.inRange_start.line?_feedBytes hrun
  refine ⟨before.length, ⟨fun n hn => ?_, e, ?_⟩, ?_⟩
  · rw [← List.take_append_drop n before] at haccepted
    rw [List.take_append_of_le_length hn]
    exact Reader.feedBytes_ok_of_append haccepted
  · rw [List.take_length_add_append]
    exact hrefused
  · rw [List.take_left]
    exact hline

/-- An input is given in any pieces, with clauses taken out between them.  If it is refused at a
byte, the requests lead to an error that names the line of this byte.  Otherwise they lead to a
reader that may refuse the end of the input, and then names the last line. -/
theorem answer_names_line (requests : List Request) :
    (∀ offset, RefusedAt (fedBytes requests) offset →
      ∃ e, Reader.start.answer requests = .error (.refused e) ∧
        e.line? = some (1 + ((fedBytes requests).take offset).count lineFeed)) ∧
    ((¬ ∃ offset, RefusedAt (fedBytes requests) offset) →
      ∃ taken r, Reader.start.answer requests = .ok (taken, r) ∧
        ∀ e, r.finish.2 = .error e → e.line? = some (1 + (fedBytes requests).count lineFeed)) := by
  have hstart : Ahead [] .start .start :=
    ⟨.empty, rfl, Formula.wellFormed_empty, rfl, rfl, .empty⟩
  have hmatches := hstart.answer (Reader.feedBytes_nil .start) requests
  generalize hrun : Reader.start.feedBytes (fedBytes requests) = x at hmatches
  generalize Reader.start.answer requests = y at hmatches
  cases hmatches with
  | @error full e =>
    obtain ⟨offset, hrefused, hline⟩ := exists_refusedAt_of_error hrun
    refine ⟨fun offset' hrefused' => ⟨e, rfl, ?_⟩, fun hnone => absurd ⟨offset, hrefused⟩ hnone⟩
    rw [hrefused'.unique hrefused]
    exact hline
  | @ok full r formulas hahead _ =>
    obtain ⟨hrange, hfailed, hnumber, -⟩ := Reader.inRange_start.feedBytes_ok hrun
    refine ⟨fun offset hrefused => ?_, fun _ => ⟨formulas, r, rfl, fun e he => ?_⟩⟩
    · obtain ⟨r', e, hrefused⟩ := hrefused.exists_error
      rw [hrun] at hrefused
      cases hrefused
    · -- the reader whose clauses were taken out ends like the one that kept them
      obtain ⟨full', r', result, hfull, hr, -⟩ := hahead.finish
      rw [hr] at he
      have hline := (hrange.finish hfailed).line?_eq e (by rw [hfull]; exact he)
      rw [hnumber] at hline
      exact hline

/-- A number that the header does not allow is judged at the line feed after it, which comes in a
piece of its own. -/
def lateRequests : List Request :=
  [.feed (ascii "p cnf 2"), .feed (ascii " 1\n1\n3"), .take, .feed (ascii "\n"),
    .feed (ascii "0\n")]

/-- A clause that the end of the input leaves open, one line after its only number. -/
def openRequests : List Request := [.feed (ascii "p cnf 2 1\r\n1"), .feed (ascii "\n")]

/-- The theorem on these inputs: the first is refused at the line feed that ends line 3, and the end
of the second is refused on line 3. -/
theorem answer_names_line_late :
    (RefusedAt (fedBytes lateRequests) 13 ∧
      ∃ e, Reader.start.answer lateRequests = .error (.refused e) ∧ e.line? = some 3) ∧
    ∃ taken r, Reader.start.answer openRequests = .ok (taken, r) ∧
      ∃ e, r.finish.2 = .error e ∧ e.line? = some 3 := by
  have hlate : RefusedAt (fedBytes lateRequests) 13 :=
    ⟨by decide +kernel, .varOutOfRange 3 3 2, by decide +kernel⟩
  have hopen : ¬ ∃ offset, RefusedAt (fedBytes openRequests) offset := by
    rintro ⟨offset, hrefused⟩
    obtain ⟨r, e, hrun⟩ := hrefused.exists_error
    have haccepted : (Reader.start.feedBytes (fedBytes openRequests)).2 = .ok () := by
      decide +kernel
    rw [hrun] at haccepted
    cases haccepted
  have hended : (Reader.start.answer openRequests).map (fun x => x.2.finish.2) =
      .ok (.error (.unterminatedClause 3)) := by
    decide +kernel
  obtain ⟨taken, r, hanswer, hline⟩ := (answer_names_line openRequests).2 hopen
  rw [hanswer] at hended
  have hend : r.finish.2 = .error (.unterminatedClause 3) := Except.ok.inj hended
  exact ⟨⟨hlate, (answer_names_line lateRequests).1 13 hlate⟩, taken, r, hanswer, _, hend,
    hline _ hend⟩

end BucketElimination.Dimacs
