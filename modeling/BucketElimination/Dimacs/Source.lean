import BucketElimination.Dimacs.Reader
set_option autoImplicit false

/-!
# DIMACS: reading from a source

A source delivers its bytes in parts, and a part may be a failure of the source itself.  One read
returns bytes of one part only, and at most `readSize` of them.  A formula is read as a whole by
`read`; `readInto` hands the clauses of each read to a visitor instead.
-/

namespace BucketElimination.Dimacs

/-- What a source has to deliver next. -/
inductive Part where
  | data (bytes : List UInt8)
  | failure (text : String)
  deriving DecidableEq, Repr

/-- A source of bytes. -/
abbrev Source := List Part

/-- Why a formula could not be read from a source. -/
inductive ReadError where
  /-- The bytes are refused. -/
  | refused (cause : Error)
  /-- The source failed. -/
  | source (text : String)
  deriving DecidableEq, Repr

/-- The text of an error. -/
def ReadError.message : ReadError → String
  | .refused cause => cause.message
  | .source text => text

namespace Source

/-- The largest number of bytes in one read. -/
def readSize : Nat := 8192

/-- Bytes cut into pieces of at most `readSize`, none of them empty. -/
def pieces (bytes : List UInt8) : List (List UInt8) :=
  match bytes with
  | [] => []
  | b :: bs => (b :: bs).take readSize :: pieces ((b :: bs).drop readSize)
termination_by bytes.length
decreasing_by
  have : 0 < readSize := by decide
  simp only [List.length_drop, List.length_cons]
  omega

/-- The reads of a source, one after the other. -/
def reads (source : Source) : List Part :=
  source.flatMap fun part =>
    match part with
    | .data bytes => (pieces bytes).map .data
    | .failure text => [.failure text]

/-- All bytes of a source, or the text with which it fails. -/
def contents : Source → Except String (List UInt8)
  | [] => .ok []
  | .failure text :: _ => .error text
  | .data bytes :: source => (contents source).map (bytes ++ ·)

end Source

/-- The end of the input: complete the last clause. -/
def finishRead (r : Reader) : Except ReadError Reader :=
  match r.finish with
  | (_, .error e) => .error (.refused e)
  | (r, .ok ()) =>
    match r.checkHeader with
    | .error e => .error (.refused e)
    | .ok () => .ok r

/-- Feed reads to a reader, up to the end of the input. -/
def feedAll : List Part → Reader → Except ReadError Reader
  | [], r => finishRead r
  | .failure text :: _, _ => .error (.source text)
  | .data bytes :: reads, r =>
    match r.feed bytes with
    | (_, .error e) => .error (.refused e)
    | (r, .ok ()) => feedAll reads r

/-- The formula that a source delivers. -/
def read (source : Source) : Except ReadError Formula :=
  (feedAll source.reads .start).map fun r => r.takeFormula.1

/-! ## Handing on the clauses while reading -/

variable {σ ε : Type}

/-- Hand the clauses read since the last time to a visitor. -/
def handOn (visit : Formula → σ → σ × Except ε Unit) (r : Reader) (s : σ) :
    σ × Except ε Reader :=
  let (formula, r) := r.takeFormula
  match visit formula s with
  | (s, .error e) => (s, .error e)
  | (s, .ok ()) => (s, .ok r)

/-- The end of the input: hand on the last clauses, then compare with the header. -/
def finishInto (fail : ReadError → ε) (visit : Formula → σ → σ × Except ε Unit)
    (r : Reader) (s : σ) : σ × Except ε Reader :=
  match r.finish with
  | (_, .error e) => (s, .error (fail (.refused e)))
  | (r, .ok ()) =>
    match handOn visit r s with
    | (s, .error e) => (s, .error e)
    | (s, .ok r) =>
      match r.checkHeader with
      | .error e => (s, .error (fail (.refused e)))
      | .ok () => (s, .ok r)

/-- Feed reads to a reader and hand on the clauses after each of them. -/
def feedInto (fail : ReadError → ε) (visit : Formula → σ → σ × Except ε Unit) :
    List Part → Reader → σ → σ × Except ε Reader
  | [], r, s => finishInto fail visit r s
  | .failure text :: _, _, s => (s, .error (fail (.source text)))
  | .data bytes :: reads, r, s =>
    match r.feed bytes with
    | (_, .error e) => (s, .error (fail (.refused e)))
    | (r, .ok ()) =>
      match handOn visit r s with
      | (s, .error e) => (s, .error e)
      | (s, .ok r) => feedInto fail visit reads r s

/-- Read a source, handing the clauses of each read to a visitor, which may stop the reading.  The
result is the reader at the end. -/
def readInto (fail : ReadError → ε) (visit : Formula → σ → σ × Except ε Unit)
    (source : Source) (s : σ) : σ × Except ε Reader :=
  feedInto fail visit source.reads .start s

/-- Read a source into a list of the formulas of each read. -/
def readParts (source : Source) : List Formula × Except ReadError Reader :=
  let (taken, result) :=
    readInto id (fun formula taken => (formula :: taken, .ok ())) source ([] : List Formula)
  (taken.reverse, result)

end BucketElimination.Dimacs
