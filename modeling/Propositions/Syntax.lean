import Mathlib.Data.Finset.Basic
import Mathlib.Data.List.Lex
import Mathlib.Data.Char

/-!
# Propositions.Syntax

The data model of `propositions/syntax.py`: the token classifiers, the `Formula` tree, and the
two printers `Formula.__repr__` (standard infix notation) and `Formula.polish` (Polish
notation), with `Formula.variables`.

Design points:

* A Python `str` is a sequence of code points; it is modelled as `List Char`.
* The source classifies characters through Python's `str.isalpha` and `str.isdecimal`, which
  read the interpreter's Unicode database. That database is not part of this repository, so
  it enters as the parameter `uc : UnicodeClasses`, whose fields pin down only its ASCII
  range. Every result holds for any table that agrees with Unicode on ASCII.
* `Formula.__init__` asserts that a node's shape matches its root. Here the shape is the
  constructor, and a variable node carries a `VarName`, a name for which `is_variable` holds,
  so a formula the constructor would reject cannot be built.
-/

namespace Propositions

/-- The two Unicode character classes the source reads: `str.isalpha` and `str.isdecimal` on
a one-character string. Only their ASCII range is fixed. -/
structure UnicodeClasses where
  /-- Python's `str.isalpha`: the Unicode letter categories `Lu`, `Ll`, `Lt`, `Lm`, `Lo`. -/
  isAlpha : Char → Bool
  /-- Python's `str.isdecimal`: the Unicode category `Nd`. -/
  isDecimal : Char → Bool
  isAlpha_ascii : ∀ c : Char, c.toNat < 128 → isAlpha c = c.isAlpha
  isDecimal_ascii : ∀ c : Char, c.toNat < 128 → isDecimal c = c.isDigit

/-- The character classes restricted to ASCII: a table that agrees with Unicode on every
ASCII character and classifies nothing else. Used to evaluate the model on examples. -/
def UnicodeClasses.ascii : UnicodeClasses where
  isAlpha := Char.isAlpha
  isDecimal := Char.isDigit
  isAlpha_ascii _ _ := rfl
  isDecimal_ascii _ _ := rfl

namespace UnicodeClasses

variable (uc : UnicodeClasses)

/-- An ASCII character that is not a digit is not decimal. -/
theorem isDecimal_eq_false {c : Char} (h : c.toNat < 128) (hd : c.isDigit = false) :
    uc.isDecimal c = false := by
  rw [uc.isDecimal_ascii c h, hd]

/-- A first character of a variable name, `p`..`z`, is a letter. -/
theorem isAlpha_of_le_of_le {c : Char} (h1 : 'p' ≤ c) (h2 : c ≤ 'z') : uc.isAlpha c = true := by
  have h1' : 112 ≤ c.toNat := h1
  have h2' : c.toNat ≤ 122 := h2
  rw [uc.isAlpha_ascii c (by omega)]
  simp only [Char.isAlpha, Char.isLower, Bool.or_eq_true, Bool.and_eq_true, decide_eq_true_eq]
  exact .inr ⟨show 97 ≤ c.toNat by omega, show c.toNat ≤ 122 by omega⟩

/-- A first character of a variable name, `p`..`z`, is not decimal. -/
theorem isDecimal_of_le_of_le {c : Char} (h1 : 'p' ≤ c) (h2 : c ≤ 'z') :
    uc.isDecimal c = false := by
  have h1' : 112 ≤ c.toNat := h1
  have h2' : c.toNat ≤ 122 := h2
  refine uc.isDecimal_eq_false (by omega) ?_
  simp only [Char.isDigit, Bool.and_eq_false_iff, decide_eq_false_iff_not]
  exact .inr (show ¬ c.toNat ≤ 57 by omega)

/-- An ASCII character that is not a letter is not alphabetic. -/
theorem isAlpha_eq_false {c : Char} (h : c.toNat < 128) (ha : c.isAlpha = false) :
    uc.isAlpha c = false := by
  rw [uc.isAlpha_ascii c h, ha]

@[simp] theorem isAlpha_tilde : uc.isAlpha '~' = false := uc.isAlpha_eq_false (by decide) rfl

@[simp] theorem isAlpha_lparen : uc.isAlpha '(' = false := uc.isAlpha_eq_false (by decide) rfl

end UnicodeClasses

/-! ## Token classifiers -/

section Classifiers

variable (uc : UnicodeClasses)

/-- Python's `str.isdecimal` on a whole string: nonempty, and every character decimal. -/
def isDecimalString (string : List Char) : Bool :=
  !string.isEmpty && string.all uc.isDecimal

/-- Whether the string is a variable name (`is_variable`): a first character in `p`..`z`
followed by decimal characters only. On the empty string the source raises `IndexError`; the
model answers `false`, which every caller treats as the same rejection. -/
def isVariable : List Char → Bool
  | [] => false
  | first :: rest => decide ('p' ≤ first) && decide (first ≤ 'z') &&
      (rest.length == 0 || isDecimalString uc rest)

/-- Whether the string is a constant (`is_constant`). -/
def isConstant (string : List Char) : Bool :=
  string == ['T'] || string == ['F']

theorem isConstant_singleton {c : Char} : isConstant [c] = true ↔ c = 'T' ∨ c = 'F' := by
  simp [isConstant]

theorem isConstant_of_le {c : Char} (h : 'p' ≤ c) : isConstant [c] = false := by
  rw [Bool.eq_false_iff, Ne, isConstant_singleton]
  rintro (rfl | rfl) <;> exact absurd h (by decide)

/-- Whether the string is the unary operator (`is_unary`). -/
def isUnary (string : List Char) : Bool :=
  string == ['~']

end Classifiers

/-- The seven binary operators of `is_binary`. -/
inductive BinOp
  /-- Conjunction, `&`. -/
  | and
  /-- Disjunction, `|`. -/
  | or
  /-- Implication, `->`. -/
  | implies
  /-- Exclusive or, `+`. -/
  | xor
  /-- Bi-implication, `<->`. -/
  | iff
  /-- Negated conjunction, `-&`. -/
  | nand
  /-- Negated disjunction, `-|`. -/
  | nor
  deriving DecidableEq, Repr

namespace BinOp

/-- The operator's token, as the source spells it. -/
def symbol : BinOp → List Char
  | .and => ['&']
  | .or => ['|']
  | .implies => ['-', '>']
  | .xor => ['+']
  | .iff => ['<', '-', '>']
  | .nand => ['-', '&']
  | .nor => ['-', '|']

/-- The operator a token denotes: `is_binary` together with the choice of operator. -/
def ofSymbol? : List Char → Option BinOp
  | ['&'] => some .and
  | ['|'] => some .or
  | ['-', '>'] => some .implies
  | ['+'] => some .xor
  | ['<', '-', '>'] => some .iff
  | ['-', '&'] => some .nand
  | ['-', '|'] => some .nor
  | _ => none

theorem ofSymbol?_eq_some_iff {s : List Char} {op : BinOp} :
    ofSymbol? s = some op ↔ s = op.symbol := by
  constructor
  · intro h
    unfold ofSymbol? at h
    split at h <;> first | cases h; rfl | cases h
  · rintro rfl
    cases op <;> rfl

@[simp] theorem ofSymbol?_symbol (op : BinOp) : ofSymbol? op.symbol = some op :=
  ofSymbol?_eq_some_iff.2 rfl

@[simp] theorem symbol_ne_nil (op : BinOp) : op.symbol ≠ [] := by
  cases op <;> simp [symbol]

theorem symbol_length_le (op : BinOp) : op.symbol.length ≤ 3 := by
  cases op <;> simp [symbol]

/-- The operator tokens form a prefix-free code: no token is a prefix of another. This is
what lets the scan after a left operand never split one token as another. -/
theorem eq_of_symbol_prefix {op op' : BinOp} (h : op.symbol <+: op'.symbol) : op = op' := by
  cases op <;> cases op' <;> first | rfl | exact absurd h (by decide)

/-- Every token starts with an ASCII character other than a digit, `(`, `)` or a letter. -/
theorem symbol_head (op : BinOp) :
    ∃ c rest, op.symbol = c :: rest ∧ c ∈ ['&', '|', '-', '+', '<'] := by
  cases op <;> simp [symbol]

end BinOp

/-- No operator token starts with a decimal character. -/
theorem UnicodeClasses.isDecimal_symbol_head (uc : UnicodeClasses) (op : BinOp) :
    ∀ c ∈ op.symbol.head?, uc.isDecimal c = false := by
  cases op <;> simp only [BinOp.symbol, List.head?_cons, Option.mem_def, Option.some.injEq,
    forall_eq'] <;> exact uc.isDecimal_eq_false (by decide) (by decide)

/-- Whether the string is a binary operator (`is_binary`). -/
def isBinary (string : List Char) : Bool :=
  (BinOp.ofSymbol? string).isSome

/-! ## Formulas -/

section Formula

variable {uc : UnicodeClasses}

theorem isVariable_cons {c : Char} {rest : List Char} :
    isVariable uc (c :: rest) = true ↔ 'p' ≤ c ∧ c ≤ 'z' ∧ ∀ d ∈ rest, uc.isDecimal d = true := by
  cases rest <;> simp [isVariable, isDecimalString, and_assoc]

/-- A variable name: a string for which `is_variable` holds. -/
abbrev VarName (uc : UnicodeClasses) := {name : List Char // isVariable uc name = true}

/-- A variable name is a letter in `p`..`z` followed by decimal characters. -/
theorem VarName.eq_cons (v : VarName uc) :
    ∃ c rest, v.val = c :: rest ∧ 'p' ≤ c ∧ c ≤ 'z' ∧ ∀ d ∈ rest, uc.isDecimal d = true := by
  obtain ⟨_ | ⟨c, rest⟩, h⟩ := v
  · exact absurd h (by simp [isVariable])
  · exact ⟨c, rest, rfl, isVariable_cons.1 h⟩

theorem VarName.val_ne_nil (v : VarName uc) : v.val ≠ [] := by
  obtain ⟨c, rest, h, -⟩ := VarName.eq_cons v
  simp [h]

/-- The variable name `p`, the first-operand marker of operator templates. -/
def VarName.p : VarName uc := ⟨['p'], rfl⟩

/-- The variable name `q`, the second-operand marker of operator templates. -/
def VarName.q : VarName uc := ⟨['q'], rfl⟩

/-- A propositional formula (`Formula`): an immutable tree whose root is a variable name, a
constant, `~`, or a binary operator, with as many children as its root takes. -/
inductive Formula (uc : UnicodeClasses)
  /-- A variable-name root, no children. -/
  | var (name : VarName uc)
  /-- A constant root: `T` (`true`) or `F` (`false`), no children. -/
  | const (value : Bool)
  /-- The unary root `~` with its first operand. -/
  | neg (first : Formula uc)
  /-- A binary root with its first and second operands. -/
  | bin (op : BinOp) (first second : Formula uc)
  deriving DecidableEq

namespace Formula

/-- The constant, variable name or operator at the root (`root`). -/
def root : Formula uc → List Char
  | var name => name.val
  | const value => if value then ['T'] else ['F']
  | neg _ => ['~']
  | bin op _ _ => op.symbol

/-- The standard infix representation (`__repr__`, what `str` returns). -/
def repr : Formula uc → List Char
  | var name => name.val
  | f@(const _) => f.root
  | neg first => '~' :: first.repr
  | bin op first second => '(' :: first.repr ++ op.symbol ++ second.repr ++ [')']

/-- Equality as `__eq__` decides it: two formulas are equal when their representations are. -/
def beq (self other : Formula uc) : Bool :=
  self.repr == other.repr

/-- The Polish-notation representation (`polish`). -/
def polish : Formula uc → List Char
  | var name => name.val
  | f@(const _) => f.root
  | neg first => '~' :: first.polish
  | bin op first second => op.symbol ++ first.polish ++ second.polish

end Formula

/-- The variable names occurring in the formula (`variables`). -/
def Formula.variables : Formula uc → Finset (VarName uc)
  | .var name => {name}
  | .const _ => ∅
  | .neg first => first.variables
  | .bin _ first second => first.variables ∪ second.variables

namespace Formula

@[simp] theorem variables_var (name : VarName uc) : (var name).variables = {name} := rfl
@[simp] theorem variables_const (value : Bool) : (const value : Formula uc).variables = ∅ := rfl
@[simp] theorem variables_neg (first : Formula uc) : (neg first).variables = first.variables :=
  rfl
@[simp] theorem variables_bin (op : BinOp) (first second : Formula uc) :
    (bin op first second).variables = first.variables ∪ second.variables := rfl

end Formula

end Formula

end Propositions
