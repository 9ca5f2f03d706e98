set_option autoImplicit false

/-!
# Logic: variables and literals

Variables are numbered from 1 up to `Var.maxNumber`, and a literal is a variable with a
polarity.  Both have an external form as an integer: the magnitude is the number of the variable
and the sign is the polarity.  Literals are ordered by their variable, and of the two literals of
one variable the negative one comes first, so sorting a list of literals puts complementary
literals next to each other.
-/

namespace BucketElimination

/-- The sign of a literal, and the side of a bucket on which a clause is filed. -/
inductive Polarity where
  | positive
  | negative
  deriving DecidableEq, Repr, Inhabited

namespace Polarity

/-- Both polarities, the positive one first. -/
def all : List Polarity := [.positive, .negative]

/-- The other polarity. -/
def opposite : Polarity → Polarity
  | .positive => .negative
  | .negative => .positive

/-- Position of a polarity in `all`. -/
def index : Polarity → Nat
  | .positive => 0
  | .negative => 1

/-- The word for a polarity in texts. -/
def name : Polarity → String
  | .positive => "positive"
  | .negative => "negative"

/-- The polarity of a literal that asks its variable to have the value `value`. -/
def ofBool (value : Bool) : Polarity :=
  if value then .positive else .negative

/-- The value that a literal of this polarity asks of its variable. -/
def toBool : Polarity → Bool
  | .positive => true
  | .negative => false

@[simp] theorem opposite_opposite (p : Polarity) : p.opposite.opposite = p := by
  cases p <;> rfl

@[simp] theorem toBool_opposite (p : Polarity) : p.opposite.toBool = !p.toBool := by
  cases p <;> rfl

theorem opposite_ne (p : Polarity) : p.opposite ≠ p := by
  cases p <;> decide

end Polarity

/-! ## Variables -/

/-- The largest number of a variable.  It leaves room for sums over the literals of a clause. -/
def Var.maxNumber : Nat := 134217727

/-- A variable, known by its number. -/
structure Var where
  /-- The number of the variable, counting from 1. -/
  number : Nat
  one_le : 1 ≤ number
  le_max : number ≤ Var.maxNumber
  deriving DecidableEq, Repr

namespace Var

instance : Inhabited Var := ⟨⟨1, by decide, by decide⟩⟩

/-- The variable with the given number, if it is in range. -/
def ofNumber? (n : Nat) : Option Var :=
  if h : 1 ≤ n ∧ n ≤ maxNumber then some ⟨n, h.1, h.2⟩ else none

/-- The variable at a position counted from 0, if it is in range. -/
def ofIndex? (i : Nat) : Option Var := ofNumber? (i + 1)

/-- The position of a variable counted from 0. -/
def index (v : Var) : Nat := v.number - 1

/-- The variable with the largest number. -/
def last : Var := ⟨maxNumber, by decide, Nat.le_refl _⟩

/-- Variables are compared by number. -/
instance : Ord Var := ⟨fun v w => compare v.number w.number⟩

instance : LT Var := ⟨fun v w => v.number < w.number⟩

instance : LE Var := ⟨fun v w => v.number ≤ w.number⟩

instance (v w : Var) : Decidable (v < w) := inferInstanceAs (Decidable (v.number < w.number))

instance (v w : Var) : Decidable (v ≤ w) := inferInstanceAs (Decidable (v.number ≤ w.number))

/-- A variable is written as its number. -/
instance : ToString Var := ⟨fun v => toString v.number⟩

theorem ext_number {v w : Var} (h : v.number = w.number) : v = w := by
  cases v; cases w; cases h; rfl

theorem lt_def {v w : Var} : v < w ↔ v.number < w.number := Iff.rfl

instance : Std.TransOrd Var := inferInstanceAs (Std.TransCmp (compareOn Var.number))

instance : Std.LawfulEqOrd Var where
  eq_of_compare h := ext_number (Nat.compare_eq_eq.1 h)

@[simp] theorem ofNumber?_number (v : Var) : ofNumber? v.number = some v := by
  simp [ofNumber?, v.one_le, v.le_max]

@[simp] theorem ofIndex?_index (v : Var) : ofIndex? v.index = some v := by
  have h : v.index + 1 = v.number := Nat.sub_add_cancel v.one_le
  simp [ofIndex?, h]

theorem ofNumber?_eq_some_iff {n : Nat} {v : Var} : ofNumber? n = some v ↔ v.number = n := by
  constructor
  · intro h
    unfold ofNumber? at h
    split at h
    · cases h; rfl
    · cases h
  · rintro rfl
    exact ofNumber?_number v

theorem ofNumber?_eq_none_iff {n : Nat} : ofNumber? n = none ↔ n = 0 ∨ maxNumber < n := by
  unfold ofNumber?
  split <;> simp <;> omega

end Var

/-! ## Literals -/

/-- A variable or its negation. -/
structure Lit where
  var : Var
  polarity : Polarity
  deriving DecidableEq, Repr, Inhabited

namespace Lit

/-- The literal written as a signed integer, if the magnitude is the number of a variable. -/
def ofInt? (n : Int) : Option Lit :=
  (Var.ofNumber? n.natAbs).map fun v => ⟨v, .ofBool (0 < n)⟩

/-- The literal as a signed integer. -/
def toInt (l : Lit) : Int :=
  match l.polarity with
  | .positive => l.var.number
  | .negative => -l.var.number

/-- Position of the literal's variable counted from 0. -/
def index (l : Lit) : Nat := l.var.index

/-- The literal asks its variable to be true. -/
def isPositive (l : Lit) : Bool := l.polarity == .positive

/-- The literal asks its variable to be false. -/
def isNegative (l : Lit) : Bool := l.polarity == .negative

/-- The complementary literal. -/
def negate (l : Lit) : Lit := { l with polarity := l.polarity.opposite }

/-- The complementary literal if `flip` is set, otherwise the literal itself. -/
def negateIf (l : Lit) (flip : Bool) : Lit := if flip then l.negate else l

/-- By variable; of one variable the negative literal comes first. -/
instance : Ord Lit := ⟨fun l m => (compare l.var m.var).then (compare l.isPositive m.isPositive)⟩

/-- The order of literals as a test. -/
def le (l m : Lit) : Bool := (compare l m).isLE

/-- A literal is written as its integer. -/
instance : ToString Lit := ⟨fun l => toString l.toInt⟩

@[simp] theorem negate_negate (l : Lit) : l.negate.negate = l := by
  simp [negate]

theorem negate_ne (l : Lit) : l.negate ≠ l := fun h =>
  l.polarity.opposite_ne (congrArg Lit.polarity h)

/-- Two literals of one variable are equal or complementary. -/
theorem eq_or_eq_negate {l m : Lit} (h : l.var = m.var) : l = m ∨ l = m.negate := by
  obtain ⟨v, p⟩ := l
  obtain ⟨w, q⟩ := m
  cases h
  cases p <;> cases q <;> simp [negate, Polarity.opposite]

theorem ext_isPositive {l m : Lit} (hv : l.var = m.var) (hp : l.isPositive = m.isPositive) :
    l = m := by
  obtain ⟨v, p⟩ := l
  obtain ⟨w, q⟩ := m
  cases hv
  cases p <;> cases q <;> first | rfl | cases hp

instance : Std.TransOrd Lit :=
  inferInstanceAs (Std.TransCmp (compareLex (compareOn Lit.var) (compareOn Lit.isPositive)))

instance : Std.LawfulEqOrd Lit where
  eq_of_compare h :=
    have h := Ordering.then_eq_eq.1 h
    ext_isPositive (Std.LawfulEqOrd.eq_of_compare h.1) (Std.LawfulEqOrd.eq_of_compare h.2)

@[simp] theorem ofInt?_toInt (l : Lit) : ofInt? l.toInt = some l := by
  obtain ⟨v, p⟩ := l
  have hv := v.one_le
  cases p
  · have h : v.number ≠ 0 := by omega
    simp [ofInt?, toInt, Polarity.ofBool, h]
  · have h : ¬ ((v.number : Int) < 0) := by omega
    simp [ofInt?, toInt, Polarity.ofBool, h]

theorem toInt_injective {l m : Lit} (h : l.toInt = m.toInt) : l = m := by
  have := ofInt?_toInt l
  rw [h, ofInt?_toInt] at this
  exact (Option.some.inj this).symm

end Lit

/-- A list of literals as it is written in messages: in brackets, divided by commas. -/
def Lit.listText (lits : List Lit) : String :=
  "[" ++ ", ".intercalate (lits.map toString) ++ "]"

end BucketElimination
