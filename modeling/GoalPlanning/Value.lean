import GoalPlanning.Binary64.Arithmetic
import GoalPlanning.Decimal.Shortest

/-!
# Values of facts

A fact about the world has a truth value, a whole number, a floating-point number or a text.
Planning only ever asks whether two values are equal. Values of different kinds never are, and
floating-point numbers are compared bit for bit, so that equality is an equivalence even in the
presence of NaN.
-/

namespace GoalPlanning

/-- The value of a fact. -/
inductive Value where
  /-- A truth value. -/
  | bool (b : Bool)
  /-- A signed whole number of 64 bits. -/
  | int (i : Int64)
  /-- A floating-point number. -/
  | float (x : Binary64)
  /-- A text. -/
  | string (s : String)
  deriving DecidableEq

namespace Value

/-- A signed whole number of 32 bits, as a value. -/
def ofInt32 (i : Int32) : Value := int i.toInt64

/-- An unsigned whole number of 32 bits, as a value. -/
def ofUInt32 (n : UInt32) : Value := int (Int64.ofNat n.toNat)

/-- A number from the 32 bits of a binary32 number, as a value. -/
def ofBinary32 (bits : UInt32) : Value := float (Binary64.ofBinary32 bits)

/-- A value as text. A text value stands for itself, without quotation marks. -/
def text : Value → String
  | bool true => "true"
  | bool false => "false"
  | int i => toString i.toInt
  | float x => x.text
  | string s => s

instance : ToString Value := ⟨text⟩

/-! ## An order on values

The order has no meaning for planning. It is there so that states can be keys of a search tree.
-/

/-- The number of a value's kind. -/
def kind : Value → Nat
  | bool _ => 0
  | int _ => 1
  | float _ => 2
  | string _ => 3

/-- What tells values of one kind apart, unless they are texts. -/
def number : Value → Int
  | bool b => if b then 1 else 0
  | int i => i.toInt
  | float x => x.rank
  | string _ => 0

/-- What tells texts apart. -/
def characters : Value → String
  | string s => s
  | _ => ""

/-- Kind, number and characters together determine a value. -/
theorem eq_of_parts {v w : Value} (hkind : v.kind = w.kind) (hnumber : v.number = w.number)
    (hcharacters : v.characters = w.characters) : v = w := by
  cases v <;> cases w <;> simp only [kind, reduceCtorEq, Nat.reduceEqDiff] at hkind
  case bool.bool a b => cases a <;> cases b <;> simp [number] at hnumber ⊢
  case int.int a b => exact congrArg int (Int64.toInt_inj.1 hnumber)
  case float.float a b => exact congrArg float (Binary64.rank_inj.1 hnumber)
  case string.string a b => exact congrArg string hcharacters

/-- Values are ordered by kind, then by number, then by characters. -/
instance : Ord Value :=
  ⟨compareLex (compareOn kind) (compareLex (compareOn number) (compareOn characters))⟩

instance : Std.TransOrd Value :=
  inferInstanceAs (Std.TransCmp
    (compareLex (compareOn kind) (compareLex (compareOn number) (compareOn characters))))

instance : Std.LawfulEqOrd Value where
  eq_of_compare {v w} h := by
    have hparts : compareLex (compareOn kind)
        (compareLex (compareOn number) (compareOn characters)) v w = .eq := h
    simp only [compareLex_eq_eq, compareOn, Std.compare_eq_iff_eq] at hparts
    exact eq_of_parts hparts.1 hparts.2.1 hparts.2.2

end Value

end GoalPlanning
