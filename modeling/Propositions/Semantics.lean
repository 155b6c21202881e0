import Propositions.Syntax
import Mathlib.Data.List.AList

/-!
# Propositions.Semantics

Models and `evaluate` from `propositions/semantics.py`.

A model is a Python dict from variable names to truth values; it is modelled as an `AList`
(an association list with distinct keys), with `AList.lookup` for `model[v]`. Keys are
`VarName`s, so `is_model` holds of every model by construction.

`evaluate` is modelled twice:

* `Formula.eval` is the textbook semantics under a total assignment, the abstract layer every
  semantic result is stated against;
* `evaluate` follows the source: it asserts that the model covers the formula's variables
  (`none` when it does not) and then splits on the root.

`evaluate_of_subset` connects them: on a covering model `evaluate` returns `Formula.eval` under
the model's lookups. `Formula.eval_congr` (the value depends only on the formula's own
variables) is what lets the classifiers and the synthesis enumerate only those variables.
-/

namespace Propositions

variable {uc : UnicodeClasses}

/-- A model (`Model`): a dict from variable names to truth values. -/
abbrev Model (uc : UnicodeClasses) := AList fun _ : VarName uc => Bool

/-- The variable names a model is defined over (`variables(model)`). -/
def Model.variables (model : Model uc) : Finset (VarName uc) :=
  model.keys.toFinset

@[simp] theorem Model.mem_variables {model : Model uc} {v : VarName uc} :
    v ∈ Model.variables model ↔ v ∈ model := by
  simp [Model.variables, AList.mem_keys]

/-- The truth value a model gives `v`, with `false` for a name it does not define. Used only
where the model defines every name it is asked about. -/
def Model.get (model : Model uc) (v : VarName uc) : Bool :=
  (model.lookup v).getD false

theorem Model.lookup_eq_some_get {model : Model uc} {v : VarName uc} (h : v ∈ model) :
    model.lookup v = some (model.get v) := by
  obtain ⟨b, hb⟩ := Option.isSome_iff_exists.1 (AList.lookup_isSome.2 h)
  simp [Model.get, hb]

/-! ## Operator truth tables -/

/-- The truth table `evaluate` gives each binary operator. -/
def BinOp.apply : BinOp → Bool → Bool → Bool
  | .and, a, b => a && b
  | .or, a, b => a || b
  | .implies, a, b => !a || b
  | .xor, a, b => a != b
  | .iff, a, b => a == b
  | .nand, a, b => !(a && b)
  | .nor, a, b => !(a || b)

/-! ## The abstract semantics -/

/-- The value of a formula under a total assignment of truth values to variable names. -/
def Formula.eval (ν : VarName uc → Bool) : Formula uc → Bool
  | .var name => ν name
  | .const value => value
  | .neg first => !first.eval ν
  | .bin op first second => op.apply (first.eval ν) (second.eval ν)

@[simp] theorem Formula.eval_var (ν : VarName uc → Bool) (name : VarName uc) :
    (Formula.var name).eval ν = ν name := rfl

@[simp] theorem Formula.eval_const (ν : VarName uc → Bool) (value : Bool) :
    (Formula.const value : Formula uc).eval ν = value := rfl

@[simp] theorem Formula.eval_neg (ν : VarName uc → Bool) (first : Formula uc) :
    (Formula.neg first).eval ν = !first.eval ν := rfl

@[simp] theorem Formula.eval_bin (ν : VarName uc → Bool) (op : BinOp) (first second : Formula uc) :
    (Formula.bin op first second).eval ν = op.apply (first.eval ν) (second.eval ν) := rfl

/-- The value depends only on the assignment to the formula's own variables. -/
theorem Formula.eval_congr {ν μ : VarName uc → Bool} (f : Formula uc)
    (h : ∀ v ∈ f.variables, ν v = μ v) : f.eval ν = f.eval μ := by
  induction f with
  | var name => exact h name (by simp)
  | const value => rfl
  | neg first ih => simp [ih h]
  | bin op first second ih₁ ih₂ =>
    simp only [Formula.variables_bin, Finset.mem_union] at h
    simp [ih₁ fun v hv => h v (.inl hv), ih₂ fun v hv => h v (.inr hv)]

/-! ## `evaluate` -/

/-- `evaluate`: the truth value of the formula in the model, `none` where the source's
assertion that the model covers the formula's variables fails. Python's `and`/`or` skip the
second operand when the first decides; both operands pass the same assertion, so evaluating
both changes nothing. -/
def evaluate (formula : Formula uc) (model : Model uc) : Option Bool :=
  if formula.variables ⊆ Model.variables model then
    match formula with
    | .var name => model.lookup name
    | .const value => some value
    | .neg first => (evaluate first model).map (!·)
    | .bin op first second =>
      (evaluate first model).bind fun a => (evaluate second model).map (op.apply a)
  else none

/-- **`evaluate` refines `Formula.eval`.** On a model that covers the formula's variables,
`evaluate` returns the formula's value under the model's lookups. -/
theorem evaluate_of_subset {f : Formula uc} {model : Model uc}
    (h : f.variables ⊆ Model.variables model) : evaluate f model = some (f.eval model.get) := by
  induction f with
  | var name =>
    rw [evaluate, if_pos h]
    exact Model.lookup_eq_some_get (by simpa using h)
  | const value => rw [evaluate, if_pos h]; rfl
  | neg first ih =>
    rw [evaluate, if_pos h]
    simp [ih h]
  | bin op first second ih₁ ih₂ =>
    have h' := Finset.union_subset_iff.1 h
    rw [evaluate, if_pos h]
    simp [ih₁ h'.1, ih₂ h'.2]

/-- On a model that misses one of the formula's variables, `evaluate`'s assertion fails. -/
theorem evaluate_of_not_subset {f : Formula uc} {model : Model uc}
    (h : ¬ f.variables ⊆ Model.variables model) : evaluate f model = none := by
  cases f <;> rw [evaluate, if_neg h]

/-- **`evaluate` reads only the formula's own variables.** Two models that define the
formula's variables and agree on them give the formula the same value, whatever else they
define. -/
theorem evaluate_eq_of_agree (f : Formula uc) (M₁ M₂ : Model uc)
    (h₁ : f.variables ⊆ Model.variables M₁) (h₂ : f.variables ⊆ Model.variables M₂)
    (hagree : ∀ v ∈ f.variables, M₁.lookup v = M₂.lookup v) :
    evaluate f M₁ = evaluate f M₂ := by
  rw [evaluate_of_subset h₁, evaluate_of_subset h₂]
  exact congrArg some (f.eval_congr fun v hv => by rw [Model.get, Model.get, hagree v hv])

/-- `p & q` in `{p: True, q: False, r: True}` and in `{q: False, p: True}`. -/
theorem evaluate_eq_of_agree_extra_key :
    let f : Formula .ascii := .bin .and (.var .p) (.var .q)
    let M₁ : Model .ascii :=
      (((∅ : Model .ascii).insert .p true).insert .q false).insert ⟨['r'], rfl⟩ true
    let M₂ : Model .ascii := ((∅ : Model .ascii).insert .q false).insert .p true
    f.variables ⊆ Model.variables M₁ ∧ f.variables ⊆ Model.variables M₂ ∧
      (∀ v ∈ f.variables, M₁.lookup v = M₂.lookup v) ∧ evaluate f M₁ = evaluate f M₂ :=
  ⟨by decide, by decide, by decide, evaluate_eq_of_agree _ _ _ (by decide) (by decide) (by decide)⟩

/-- A formula that `evaluate` gives a value in a model has its variables in the model. -/
theorem variables_subset_of_evaluate_eq_some {f : Formula uc} {model : Model uc} {b : Bool}
    (h : evaluate f model = some b) : f.variables ⊆ Model.variables model := by
  by_contra hn
  rw [evaluate_of_not_subset hn] at h
  cases h

end Propositions
