import BucketElimination.Config.Basic
import BucketElimination.Text.Decimal
set_option autoImplicit false

/-!
# Host: configuration texts

How the executable reads configuration texts.  A text is a flat TOML document: lines that are blank,
hold a comment or set one option to an integer, a truth value or a string.  Every option is a plain
value, so a document with arrays, fractions or dates is refused.  A name may be set once.

An option that is one of several names may also be set by a table: one line with a path in brackets
that begins with the option and ends with the name, and no other setting in the document.

Strings come in four forms: basic strings with escapes and literal strings without, each on one
line or, between three quotes, over several.  Integers may have a sign and single underscores
between digits, and may be written in hexadecimal, octal or binary.
-/

namespace BucketElimination.Host.Settings

/-! ## Updates from values -/

/-- A value given for an option, as far as options tell values apart. -/
inductive Value where
  /-- No value, which leaves the option as it is. -/
  | unset
  | bool (b : Bool)
  | int (n : Int)
  | text (s : String)
  /-- One of several names, given as a table of that one name without content. -/
  | choice (name : String)
  /-- A value that no option takes. -/
  | other
  deriving DecidableEq, Repr

namespace Value

/-- The value as a count that fits a 64-bit word. -/
def count? : Value → Option Nat
  | .int n => if 0 ≤ n ∧ n < Decimal.countBound then some n.toNat else none
  | _ => none

/-- The value as an order of elimination. -/
def order? : Value → Option Order
  | .text s => Order.ofName? s
  | .choice s => Order.ofName? s
  | _ => none

/-- The value as a truth value. -/
def bool? : Value → Option Bool
  | .bool b => some b
  | _ => none

end Value

/-- Set the option with the given name; `none` if there is no such option or it does not take the
value. -/
def set? (u : Update) (name : String) (value : Value) : Option Update :=
  match name with
  | "worker_count" =>
    if value = .unset then some u
    else value.count?.map fun n => { u with workerCount := some n }
  | "chunk_capacity" =>
    if value = .unset then some u
    else value.count?.map fun n => { u with chunkCapacity := some n }
  | "elimination_order" =>
    if value = .unset then some u
    else value.order?.map fun o => { u with order := some o }
  | "shuffle_redistribution" =>
    if value = .unset then some u
    else value.bool?.map fun b => { u with shuffle := some b }
  | "seed" =>
    if value = .unset then some u
    else value.count?.map fun n => { u with seed := some (UInt64.ofNat n) }
  | _ => none

/-- The update that sets all given options. -/
def ofFields? (fields : List (String × Value)) : Option Update :=
  fields.foldlM (fun u field => set? u field.1 field.2) .empty

/-! ## Characters -/

/-- Line ends as single line feeds. -/
def foldLineEnds : List Char → List Char
  | '\r' :: '\n' :: cs => '\n' :: foldLineEnds cs
  | c :: cs => c :: foldLineEnds cs
  | [] => []

/-- A space or a tab. -/
def isGap (c : Char) : Bool := c == ' ' || c == '\t'

/-- The text after leading gaps. -/
def skipGaps (cs : List Char) : List Char := cs.dropWhile isGap

/-- The character may stand in a name without quotes, and in a number. -/
def isBare (c : Char) : Bool := c.isAlphanum || c == '-' || c == '_'

/-- The character may stand in a comment. -/
def inComment (c : Char) : Bool := c == '\t' || 0x20 ≤ c.toNat

/-- The character may stand in a string as itself. -/
def inString (c : Char) : Bool := c == '\t' || (0x20 ≤ c.toNat && c.toNat != 0x7F)

/-! ## Strings -/

/-- The value of a digit in a base up to 16. -/
def digit? (base : Nat) (c : Char) : Option Nat :=
  let n := c.toNat
  let value :=
    if '0' ≤ c ∧ c ≤ '9' then n - 48
    else if 'a' ≤ c ∧ c ≤ 'f' then n - 87
    else if 'A' ≤ c ∧ c ≤ 'F' then n - 55
    else base
  if value < base then some value else none

/-- The number written by exactly `count` hexadecimal digits, and the text after them. -/
def hex? : Nat → Nat → List Char → Option (Nat × List Char)
  | 0, value, cs => some (value, cs)
  | _ + 1, _, [] => none
  | n + 1, value, c :: cs =>
    match digit? 16 c with
    | none => none
    | some d => hex? n (value * 16 + d) cs

/-- The character with a code point, unless the code point belongs to none. -/
def char? (n : Nat) : Option Char :=
  if n.isValidChar then some (Char.ofNat n) else none

/-- The text after a backslash that ends a line: all blanks up to the next word are skipped.  Before
the line feed only gaps may stand. -/
def joinLines? (cs : List Char) : Option (List Char) :=
  match skipGaps cs with
  | [] => some []
  | '\n' :: rest => some (rest.dropWhile fun c => isGap c || c == '\n')
  | _ => none

/-- The character that an escape stands for, or none for a joined line, and the text after it. -/
def escape? (multiline : Bool) : List Char → Option (Option Char × List Char)
  | '"' :: cs => some (some '"', cs)
  | '\\' :: cs => some (some '\\', cs)
  | 'b' :: cs => some (some '\x08', cs)
  | 'f' :: cs => some (some '\x0c', cs)
  | 'n' :: cs => some (some '\n', cs)
  | 'r' :: cs => some (some '\r', cs)
  | 't' :: cs => some (some '\t', cs)
  | 'u' :: cs => do
    let (n, cs) ← hex? 4 0 cs
    return (some (← char? n), cs)
  | 'U' :: cs => do
    let (n, cs) ← hex? 8 0 cs
    return (some (← char? n), cs)
  | c :: cs =>
    if multiline ∧ (isGap c ∨ c = '\n') then (joinLines? (c :: cs)).map fun cs => (none, cs)
    else none
  | [] => none

/-- The rest of a string on one line, after its opening quote, and the text after it.  The first
argument bounds the number of characters read. -/
def oneLine? (quote : Char) : Nat → List Char → List Char → Option (String × List Char)
  | 0, _, _ => none
  | _ + 1, _, [] => none
  | fuel + 1, value, c :: cs =>
    if c = quote then some (String.ofList value.reverse, cs)
    else if c = '\\' ∧ quote = '"' then
      match escape? false cs with
      | some (some c, cs) => oneLine? quote fuel (c :: value) cs
      | _ => none
    else if inString c then oneLine? quote fuel (c :: value) cs
    else none

/-- The rest of a string over several lines, after its three opening quotes.  Up to two quotes right
before the three closing ones belong to the string. -/
def manyLines? (quote : Char) : Nat → List Char → List Char → Option (String × List Char)
  | 0, _, _ => none
  | _ + 1, _, [] => none
  | fuel + 1, value, c :: cs =>
    if c = quote then
      match cs with
      | c₂ :: c₃ :: rest =>
        if c₂ = quote ∧ c₃ = quote then
          let extra := (rest.takeWhile (· == quote)).take 2
          some (String.ofList (extra ++ value).reverse, rest.drop extra.length)
        else manyLines? quote fuel (c :: value) cs
      | _ => manyLines? quote fuel (c :: value) cs
    else if c = '\n' then manyLines? quote fuel (c :: value) cs
    else if c = '\\' ∧ quote = '"' then
      match escape? true cs with
      | some (some c, cs) => manyLines? quote fuel (c :: value) cs
      | some (none, cs) => manyLines? quote fuel value cs
      | none => none
    else if inString c then manyLines? quote fuel (c :: value) cs
    else none

/-- A string after its first quote, whether it may span lines, and the text after it.  A line feed
right after three opening quotes does not belong to the string. -/
def string? (quote : Char) (cs : List Char) : Option (String × Bool × List Char) :=
  match cs with
  | c₁ :: c₂ :: rest =>
    if c₁ = quote ∧ c₂ = quote then
      let body := match rest with
        | '\n' :: body => body
        | body => body
      (manyLines? quote (body.length + 1) [] body).map fun (s, cs) => (s, true, cs)
    else (oneLine? quote (cs.length + 1) [] cs).map fun (s, cs) => (s, false, cs)
  | _ => (oneLine? quote (cs.length + 1) [] cs).map fun (s, cs) => (s, false, cs)

/-! ## Numbers -/

/-- The number written by digits in a base, with single underscores between digits.  `afterDigit`
says that a digit stands right before the text. -/
def digits? (base : Nat) (afterDigit : Bool) (value : Nat) : List Char → Option Nat
  | [] => if afterDigit then some value else none
  | '_' :: cs => if afterDigit then digits? base false value cs else none
  | c :: cs =>
    match digit? base c with
    | none => none
    | some d => digits? base true (value * base + d) cs

/-- A decimal number without leading zeros. -/
def decimal? (cs : List Char) : Option Nat :=
  match cs with
  | '0' :: _ :: _ => none
  | _ => digits? 10 false 0 cs

/-- An integer that fits a signed 64-bit word. -/
def bounded? (n : Int) : Option Int :=
  if -9223372036854775808 ≤ n ∧ n ≤ 9223372036854775807 then some n else none

/-- An integer in one of the four bases; only decimal ones may be negative. -/
def integer? : List Char → Option Int
  | '0' :: 'x' :: cs => (digits? 16 false 0 cs).bind fun n => bounded? n
  | '0' :: 'o' :: cs => (digits? 8 false 0 cs).bind fun n => bounded? n
  | '0' :: 'b' :: cs => (digits? 2 false 0 cs).bind fun n => bounded? n
  | '-' :: cs => (decimal? cs).bind fun n => bounded? (-n)
  | cs => (decimal? cs).bind fun n => bounded? n

/-! ## Values -/

/-- A name, bare or as a string on one line, and the text after it. -/
def name? (cs : List Char) : Option (String × List Char) :=
  let quoted (quote : Char) (cs : List Char) : Option (String × List Char) :=
    match string? quote cs with
    | some (s, false, cs) => some (s, cs)
    | _ => none
  match cs with
  | '"' :: cs => quoted '"' cs
  | '\'' :: cs => quoted '\'' cs
  | cs =>
    let bare := cs.takeWhile isBare
    if bare.isEmpty then none else some (String.ofList bare, cs.drop bare.length)

/-- The text after a given character and the gaps around it. -/
def expect? (c : Char) (cs : List Char) : Option (List Char) :=
  match skipGaps cs with
  | d :: rest => if d = c then some (skipGaps rest) else none
  | [] => none

/-- A table of one name without content, after its opening brace. -/
def choice? (cs : List Char) : Option (Value × List Char) := do
  let (name, cs) ← name? (skipGaps cs)
  let cs ← expect? '=' cs
  let cs ← expect? '\x7b' cs
  let cs ← expect? '\x7d' cs
  let cs ← expect? '\x7d' cs
  return (.choice name, cs)

/-- A value and the text after it. -/
def value? (cs : List Char) : Option (Value × List Char) :=
  let quoted (quote : Char) (cs : List Char) : Option (Value × List Char) :=
    (string? quote cs).map fun (s, _, cs) => (.text s, cs)
  let number (cs : List Char) : Option (Value × List Char) :=
    let word := cs.takeWhile isBare
    (integer? word).map fun n => (.int n, cs.drop word.length)
  match cs with
  | '"' :: cs => quoted '"' cs
  | '\'' :: cs => quoted '\'' cs
  | '\x7b' :: cs => choice? cs
  | '+' :: cs => number cs
  | cs =>
    let word := cs.takeWhile isBare
    if word = ['t', 'r', 'u', 'e'] then some (.bool true, cs.drop 4)
    else if word = ['f', 'a', 'l', 's', 'e'] then some (.bool false, cs.drop 5)
    else number cs

/-! ## Documents -/

/-- The text after the end of a line, before which a comment may stand. -/
def lineEnd? (cs : List Char) : Option (List Char) :=
  let cs := match skipGaps cs with
    | '#' :: comment => comment.dropWhile inComment
    | cs => cs
  match cs with
  | [] => some []
  | '\n' :: rest => some rest
  | _ => none

/-- A line that sets an option, and the text after it. -/
def setting? (cs : List Char) : Option ((String × Value) × List Char) := do
  let (name, cs) ← name? cs
  let cs ← expect? '=' cs
  let (value, cs) ← value? cs
  let cs ← lineEnd? cs
  return ((name, value), cs)

/-- A path, that is, names divided by periods, and the text after it.  The first argument bounds the
number of names. -/
def path? : Nat → List Char → Option (List String × List Char)
  | 0, _ => none
  | fuel + 1, cs =>
    match name? (skipGaps cs) with
    | none => none
    | some (name, cs) =>
      match expect? '.' cs with
      | none => some ([name], skipGaps cs)
      | some cs => (path? fuel cs).map fun (names, cs) => (name :: names, cs)

/-- The path on a line after one opening bracket or two, and the text after the line.  As many
brackets close the path. -/
def table? (cs : List Char) : Option (List String × List Char) :=
  let (double, cs) := match cs with
    | '[' :: cs => (true, cs)
    | cs => (false, cs)
  match path? (cs.length + 1) cs with
  | none => none
  | some (path, cs) =>
    let rest := match double, cs with
      | true, ']' :: ']' :: cs => lineEnd? cs
      | false, ']' :: cs => lineEnd? cs
      | _, _ => none
    rest.map fun cs => (path, cs)

/-- A line that is neither blank nor a comment. -/
inductive Entry where
  | setting (name : String) (value : Value)
  /-- The table with a path begins. -/
  | table (path : List String)

/-- An entry, and the text after its line. -/
def entry? : List Char → Option (Entry × List Char)
  | '[' :: cs => (table? cs).map fun (path, cs) => (.table path, cs)
  | cs => (setting? cs).map fun ((name, value), cs) => (.setting name value, cs)

/-- The entries of a document.  The first argument bounds the number of lines. -/
def entries? : Nat → List Char → Option (List Entry)
  | 0, _ => none
  | fuel + 1, cs =>
    match skipGaps cs with
    | [] => some []
    | '\n' :: rest => entries? fuel rest
    | '#' :: rest =>
      match lineEnd? ('#' :: rest) with
      | none => none
      | some rest => entries? fuel rest
    | cs =>
      match entry? cs with
      | none => none
      | some (entry, rest) => (entries? fuel rest).map (entry :: ·)

/-- The values that entries give to options if all of them are settings. -/
def plainSettings? : List Entry → Option (List (String × Value))
  | [] => some []
  | .setting name value :: entries => (plainSettings? entries).map ((name, value) :: ·)
  | .table _ :: _ => none

/-- The values that entries give to options: each setting gives one, and so does a table that stands
alone. -/
def settings? : List Entry → Option (List (String × Value))
  | [.table path] =>
    match path.head?, path.getLast? with
    | some option, some name => some [(option, .choice name)]
    | _, _ => none
  | entries => plainSettings? entries

/-- No name occurs twice. -/
def namesDiffer : List (String × Value) → Bool
  | [] => true
  | (name, _) :: rest => !(rest.any fun s => s.1 == name) && namesDiffer rest

/-- The values that a configuration text gives to options. -/
def document? (text : List Char) : Option (List (String × Value)) :=
  let cs := foldLineEnds (match text with
    | '\ufeff' :: cs => cs
    | cs => cs)
  (entries? (cs.length + 1) cs).bind settings?

/-- The update that a configuration text describes. -/
def update? (text : List Char) : Option Update :=
  match document? text with
  | none => none
  | some settings => if namesDiffer settings then ofFields? settings else none

/-- The update that a configuration text describes, or the text of an error. -/
def read (text : String) : Except String Update :=
  match update? text.toList with
  | some u => .ok u
  | none => .error "The configuration could not be understood"

/-! ## What a text gives -/

/-- The counts of an update fit a 64-bit word. -/
structure Fits (u : Update) : Prop where
  workerCount_lt : ∀ n ∈ u.workerCount, n < Decimal.countBound
  chunkCapacity_lt : ∀ n ∈ u.chunkCapacity, n < Decimal.countBound

theorem fits_empty : Fits .empty := ⟨nofun, nofun⟩

theorem Fits.merge {u later : Update} (h : Fits u) (h' : Fits later) : Fits (u.merge later) where
  workerCount_lt n hn := by
    rw [Update.merge, Option.mem_def, Option.or_eq_some_iff] at hn
    obtain hn | ⟨-, hn⟩ := hn
    · exact h'.workerCount_lt n hn
    · exact h.workerCount_lt n hn
  chunkCapacity_lt n hn := by
    rw [Update.merge, Option.mem_def, Option.or_eq_some_iff] at hn
    obtain hn | ⟨-, hn⟩ := hn
    · exact h'.chunkCapacity_lt n hn
    · exact h.chunkCapacity_lt n hn

theorem lt_of_count? {value : Value} {n : Nat} (h : value.count? = some n) :
    n < Decimal.countBound := by
  unfold Value.count? at h
  split at h
  · rename_i k
    split at h
    · rename_i hk
      cases h
      omega
    · cases h
  · cases h

theorem Fits.set? {u u' : Update} {name : String} {value : Value} (h : Fits u)
    (hset : set? u name value = some u') : Fits u' := by
  unfold Settings.set? at hset
  by_cases hunset : value = .unset
  · simp only [hunset, if_true] at hset
    split at hset <;> cases hset <;> exact h
  · simp only [if_neg hunset] at hset
    split at hset
    · obtain ⟨n, hn, rfl⟩ := Option.map_eq_some_iff.1 hset
      exact ⟨fun k hk => by cases hk; exact lt_of_count? hn, h.chunkCapacity_lt⟩
    · obtain ⟨n, hn, rfl⟩ := Option.map_eq_some_iff.1 hset
      exact ⟨h.workerCount_lt, fun k hk => by cases hk; exact lt_of_count? hn⟩
    · obtain ⟨o, -, rfl⟩ := Option.map_eq_some_iff.1 hset
      exact ⟨h.workerCount_lt, h.chunkCapacity_lt⟩
    · obtain ⟨b, -, rfl⟩ := Option.map_eq_some_iff.1 hset
      exact ⟨h.workerCount_lt, h.chunkCapacity_lt⟩
    · obtain ⟨n, -, rfl⟩ := Option.map_eq_some_iff.1 hset
      exact ⟨h.workerCount_lt, h.chunkCapacity_lt⟩
    · cases hset

theorem Fits.foldlM_set? {fields : List (String × Value)} {u u' : Update} (h : Fits u)
    (hfold : fields.foldlM (fun u field => Settings.set? u field.1 field.2) u = some u') :
    Fits u' := by
  induction fields generalizing u with
  | nil =>
    cases hfold
    exact h
  | cons field fields ih =>
    rw [List.foldlM_cons] at hfold
    obtain ⟨u₁, hset, hrest⟩ := Option.bind_eq_some_iff.1 hfold
    exact ih (h.set? hset) hrest

/-- The counts in a text that is read fit a 64-bit word. -/
theorem fits_of_read {text : String} {u : Update} (h : read text = .ok u) : Fits u := by
  unfold read at h
  split at h
  · rename_i u' hupdate
    cases h
    unfold update? at hupdate
    split at hupdate
    · cases hupdate
    · split at hupdate
      · exact fits_empty.foldlM_set? hupdate
      · cases hupdate
  · cases h

end BucketElimination.Host.Settings
