import Propositions.Semantics
import Mathlib.Data.Finset.Union

/-!
# Propositions.Substitution

`Formula.substitute_variables` and `Formula.substitute_operators` from
`propositions/syntax.py`, and what they do to the meaning of a formula.

* A variable substitution map is an `AList` from variable names to formulas, so every key
  passes the source's `is_variable` assertion by construction. `substituteVariables` replaces
  each variable occurrence of the receiver in one pass; replacements are not visited again.
* An operator substitution map is an `AList` from `Operator` (the constants and operators that
  `is_constant`, `is_unary` and `is_binary` accept) to template formulas. The source's other
  assertion, that every template is over `p` and `q` only, is `templatesOverPQ`;
  `substituteOperators` is `none` where it fails.

## Proof shape

`Formula.eval_substituteVariables` is the substitution lemma of the abstract semantics:
evaluating a substitution is evaluating the receiver under `substAssignment`, which gives each
key its replacement's value. `evaluate` agrees with `Formula.eval` on covering models, and every
variable of the receiver contributes its replacement's variables, or itself, to the
substitution (`variables_substituteVariables_eq_biUnion`); together they give the lemma for
`evaluate`.

For operators, a template equivalent to its key is, under any assignment, the key's truth table
at the values of `p` and `q` (`eval_eq_apply_of_evaluate_pqModel`). Instantiating it with the
rewritten operands therefore means what the rebuilt node means (`eval_instantiateTemplate`),
and by induction on the formula the rewrite preserves `Formula.eval`.
-/

namespace Propositions

variable {uc : UnicodeClasses}

/-! ## `substitute_variables` -/

/-- A variable substitution map (`Mapping[str, Formula]` keyed by variable names). -/
abbrev SubstitutionMap (uc : UnicodeClasses) := AList fun _ : VarName uc => Formula uc

/-- `substitute_variables`: each variable occurrence that is a key of the map becomes its
formula (`substitution_map.get(self.root, self)`); every other node is rebuilt over the
substituted operands. -/
def Formula.substituteVariables (substitutionMap : SubstitutionMap uc) : Formula uc → Formula uc
  | .var name => (substitutionMap.lookup name).getD (.var name)
  | .const value => .const value
  | .neg first => .neg (first.substituteVariables substitutionMap)
  | .bin op first second =>
    .bin op (first.substituteVariables substitutionMap) (second.substituteVariables substitutionMap)

/-- The assignment under which the receiver means what its substitution means under `ν`: a key
of the map gets its replacement's value, any other name its own. -/
def substAssignment (σ : SubstitutionMap uc) (ν : VarName uc → Bool) (v : VarName uc) : Bool :=
  (σ.lookup v).elim (ν v) (·.eval ν)

/-- **Substitution lemma** for the abstract semantics. -/
theorem Formula.eval_substituteVariables (f : Formula uc) (σ : SubstitutionMap uc)
    (ν : VarName uc → Bool) :
    (f.substituteVariables σ).eval ν = f.eval (substAssignment σ ν) := by
  induction f with
  | var name =>
    simp only [Formula.substituteVariables, substAssignment, Formula.eval_var]
    cases σ.lookup name <;> rfl
  | const value => rfl
  | neg first ih => simp [Formula.substituteVariables, ih]
  | bin op first second ih₁ ih₂ => simp [Formula.substituteVariables, ih₁, ih₂]

/-- The variables of a substitution: each variable of the receiver contributes its
replacement's variables, or itself when it is not a key. -/
theorem variables_substituteVariables_eq_biUnion (f : Formula uc) (σ : SubstitutionMap uc) :
    (f.substituteVariables σ).variables =
      f.variables.biUnion fun v => (σ.lookup v).elim {v} Formula.variables := by
  induction f with
  | var name => rcases h : σ.lookup name with _ | g <;> simp [Formula.substituteVariables, h]
  | const value => rfl
  | neg first ih => simpa [Formula.substituteVariables] using ih
  | bin op first second ih₁ ih₂ =>
    ext u
    simp [Formula.substituteVariables, ih₁, ih₂, or_and_right, exists_or]

theorem subset_variables_substituteVariables (σ : SubstitutionMap uc) {f : Formula uc}
    {v : VarName uc} (hv : v ∈ f.variables) :
    (σ.lookup v).elim {v} Formula.variables ⊆ (f.substituteVariables σ).variables := by
  rw [variables_substituteVariables_eq_biUnion]
  exact Finset.subset_biUnion_of_mem (fun v => (σ.lookup v).elim {v} Formula.variables) hv

/-- **Substitution lemma for `evaluate`.** In a model covering the substitution's variables,
the substitution has the value the receiver has in any model that gives each of the receiver's
variables its replacement's value in the first model, or, when it is not a key, its value
there. Replacements are substituted once and not rewritten again. -/
theorem evaluate_substituteVariables (f : Formula uc) (σ : SubstitutionMap uc)
    (M M' : Model uc) (hM : (f.substituteVariables σ).variables ⊆ Model.variables M)
    (hM' : ∀ v ∈ f.variables, M'.lookup v = (σ.lookup v).elim (M.lookup v) (evaluate · M)) :
    evaluate (f.substituteVariables σ) M = evaluate f M' := by
  have hlookup : ∀ v ∈ f.variables, M'.lookup v = some (substAssignment σ M.get v) := by
    intro v hv
    have hsub := (subset_variables_substituteVariables σ hv).trans hM
    rw [hM' v hv, substAssignment]
    rcases h : σ.lookup v with _ | g
    · rw [h, Option.elim_none, Finset.singleton_subset_iff, Model.mem_variables] at hsub
      exact Model.lookup_eq_some_get hsub
    · rw [h, Option.elim_some] at hsub
      exact evaluate_of_subset hsub
  have hcov : f.variables ⊆ Model.variables M' := fun v hv =>
    Model.mem_variables.2 (AList.lookup_isSome.1 (by rw [hlookup v hv]; rfl))
  calc evaluate (f.substituteVariables σ) M
      = some (f.eval (substAssignment σ M.get)) := by
        rw [evaluate_of_subset hM, Formula.eval_substituteVariables]
    _ = some (f.eval M'.get) := congrArg some (f.eval_congr fun v hv => by
        rw [Model.get, hlookup v hv, Option.getD_some])
    _ = evaluate f M' := (evaluate_of_subset hcov).symm

/-- The variable name `r`. -/
def VarName.r : VarName uc := ⟨['r'], rfl⟩

/-- The docstring's example: `((p->p)|r)` with `{p: (q&r), r: p}`, in the model
`{p: True, q: False, r: True}`. -/
theorem evaluate_substituteVariables_docstring :
    let f : Formula .ascii := .bin .or (.bin .implies (.var .p) (.var .p)) (.var .r)
    let σ : SubstitutionMap .ascii :=
      ((∅ : SubstitutionMap .ascii).insert .p (.bin .and (.var .q) (.var .r))).insert .r (.var .p)
    let M : Model .ascii := (((∅ : Model .ascii).insert .p true).insert .q false).insert .r true
    let M' : Model .ascii := ((∅ : Model .ascii).insert .p false).insert .r true
    (f.substituteVariables σ).variables ⊆ Model.variables M ∧
      (∀ v ∈ f.variables, M'.lookup v = (σ.lookup v).elim (M.lookup v) (evaluate · M)) ∧
      evaluate (f.substituteVariables σ) M = evaluate f M' :=
  ⟨by decide, by decide, evaluate_substituteVariables _ _ _ _ (by decide) (by decide)⟩

/-! ## Composing substitutions -/

@[simp] theorem Formula.substituteVariables_empty (f : Formula uc) :
    f.substituteVariables ∅ = f := by
  induction f with
  | var name => rfl
  | const value => rfl
  | neg first ih => rw [Formula.substituteVariables, ih]
  | bin op first second ih₁ ih₂ => rw [Formula.substituteVariables, ih₁, ih₂]

/-- **Substituting twice is substituting once.** `f.substitute_variables(σ)` followed by
`substitute_variables(τ)` is `f.substitute_variables(ρ)` for every map `ρ` that sends each
variable of `f` to its replacement under `σ` with `τ` substituted into it, or, when it is not a
key of `σ`, to its replacement under `τ`, if any. -/
theorem substituteVariables_substituteVariables (f : Formula uc) (σ τ ρ : SubstitutionMap uc)
    (hρ : ∀ v ∈ f.variables,
      ρ.lookup v = (σ.lookup v).elim (τ.lookup v) fun g => some (g.substituteVariables τ)) :
    (f.substituteVariables σ).substituteVariables τ = f.substituteVariables ρ := by
  induction f with
  | var name =>
    have h := hρ name (by simp)
    rcases hσ : σ.lookup name with _ | g <;>
      simp only [hσ, Option.elim_none, Option.elim_some] at h <;>
      simp only [Formula.substituteVariables, hσ, h, Option.getD_none, Option.getD_some]
  | const value => rfl
  | neg first ih => rw [Formula.substituteVariables, Formula.substituteVariables,
      Formula.substituteVariables, ih fun v hv => hρ v hv]
  | bin op first second ih₁ ih₂ =>
    simp only [Formula.substituteVariables, Formula.variables_bin, Finset.mem_union] at hρ ⊢
    rw [ih₁ fun v hv => hρ v (.inl hv), ih₂ fun v hv => hρ v (.inr hv)]

/-- The docstring's substitution `{p: (q&r), r: p}` on `((p->p)|r)`, then `{p: ~q, q: T}`, is
one substitution by `{p: (T&r), r: ~q, q: T}`. -/
theorem substituteVariables_substituteVariables_docstring :
    let f : Formula .ascii := .bin .or (.bin .implies (.var .p) (.var .p)) (.var .r)
    let σ : SubstitutionMap .ascii :=
      ((∅ : SubstitutionMap .ascii).insert .p (.bin .and (.var .q) (.var .r))).insert .r (.var .p)
    let τ : SubstitutionMap .ascii :=
      ((∅ : SubstitutionMap .ascii).insert .p (.neg (.var .q))).insert .q (.const true)
    let ρ : SubstitutionMap .ascii :=
      (((∅ : SubstitutionMap .ascii).insert .p (.bin .and (.const true) (.var .r))).insert .r
        (.neg (.var .q))).insert .q (.const true)
    (∀ v ∈ f.variables,
      ρ.lookup v = (σ.lookup v).elim (τ.lookup v) fun g => some (g.substituteVariables τ)) ∧
      (f.substituteVariables σ).substituteVariables τ = f.substituteVariables ρ :=
  ⟨by decide, substituteVariables_substituteVariables _ _ _ _ (by decide)⟩

/-! ## `substitute_operators` -/

/-- A key of an operator substitution map: a constant, the unary operator or a binary
operator, the strings `is_constant`, `is_unary` or `is_binary` accept. -/
inductive Operator
  /-- `'T'` or `'F'`. -/
  | const (value : Bool)
  /-- `'~'`. -/
  | neg
  /-- A binary operator. -/
  | bin (op : BinOp)
  deriving DecidableEq, Repr

/-- The truth table `evaluate` gives a key, as a function of the first and second operand. -/
def Operator.apply : Operator → Bool → Bool → Bool
  | .const value, _, _ => value
  | .neg, a, _ => !a
  | .bin op, a, b => op.apply a b

/-- An operator substitution map (`Mapping[str, Formula]` keyed by operators). -/
abbrev OperatorMap (uc : UnicodeClasses) := AList fun _ : Operator => Formula uc

/-- The assertion `substitute_operators` makes of every template: its variables are among
`p` and `q`. -/
def templatesOverPQ (σ : OperatorMap uc) : Bool :=
  σ.entries.all fun entry => decide (entry.2.variables ⊆ {VarName.p, VarName.q})

/-- The rewrite of a node whose operands are already rewritten: the rebuilt node when its key
is not in the map, else the key's template with `subs` substituted
(`template.substitute_variables(subs)`). -/
def instantiateTemplate (σ : OperatorMap uc) (key : Operator) (node : Formula uc)
    (subs : SubstitutionMap uc) : Formula uc :=
  match σ.lookup key with
  | none => node
  | some template => template.substituteVariables subs

/-- The recursion of `substitute_operators`: operands first, then the node's own key, with
`subs` binding `p` to the first rewritten operand and `q` to the second, where there is one. -/
def Formula.substituteOperatorsAux (σ : OperatorMap uc) : Formula uc → Formula uc
  | .var name => .var name
  | .const value => instantiateTemplate σ (.const value) (.const value) ∅
  | .neg first =>
    let newFirst := first.substituteOperatorsAux σ
    instantiateTemplate σ .neg (.neg newFirst) ((∅ : SubstitutionMap uc).insert VarName.p newFirst)
  | .bin op first second =>
    let newFirst := first.substituteOperatorsAux σ
    let newSecond := second.substituteOperatorsAux σ
    instantiateTemplate σ (.bin op) (.bin op newFirst newSecond)
      (((∅ : SubstitutionMap uc).insert VarName.p newFirst).insert VarName.q newSecond)

/-- `substitute_operators`: `none` where a template is not over `p` and `q`. -/
def Formula.substituteOperators (σ : OperatorMap uc) (f : Formula uc) : Option (Formula uc) :=
  if templatesOverPQ σ then some (f.substituteOperatorsAux σ) else none

/-- The model `{'p': a, 'q': b}` a template is evaluated in. -/
def pqModel (a b : Bool) : Model uc :=
  ((∅ : Model uc).insert .p a).insert .q b

theorem VarName.p_ne_q : (VarName.p : VarName uc) ≠ VarName.q := by
  intro h
  cases congrArg Subtype.val h

@[simp] theorem mem_pqModel {a b : Bool} {v : VarName uc} :
    v ∈ (pqModel a b : Model uc) ↔ v = .p ∨ v = .q := by
  simp only [pqModel, AList.mem_insert, AList.not_mem_empty, or_false]
  exact or_comm

@[simp] theorem get_pqModel_p (a b : Bool) : (pqModel a b : Model uc).get .p = a := by
  simp only [pqModel, Model.get, AList.lookup_insert_ne VarName.p_ne_q, AList.lookup_insert,
    Option.getD_some]

@[simp] theorem get_pqModel_q (a b : Bool) : (pqModel a b : Model uc).get .q = b := by
  simp only [pqModel, Model.get, AList.lookup_insert, Option.getD_some]

/-- A template equivalent to its key in the models `{'p': a, 'q': b}` is the key's truth table
under every assignment. -/
theorem eval_eq_apply_of_evaluate_pqModel {t : Formula uc} {op : Operator}
    (h : ∀ a b, evaluate t (pqModel a b) = some (op.apply a b)) (ν : VarName uc → Bool) :
    t.eval ν = op.apply (ν .p) (ν .q) := by
  have hab := h (ν .p) (ν .q)
  have hvars := variables_subset_of_evaluate_eq_some hab
  rw [evaluate_of_subset hvars, Option.some_inj] at hab
  rw [← hab]
  refine t.eval_congr fun v hv => ?_
  rcases mem_pqModel.1 (Model.mem_variables.1 (hvars hv)) with rfl | rfl <;> simp

/-- Every template of the map is, under every assignment, its key's truth table at the values
of `p` and `q`. -/
def TemplatesEquivalent (σ : OperatorMap uc) : Prop :=
  ∀ op t, σ.lookup op = some t → ∀ ν : VarName uc → Bool, t.eval ν = op.apply (ν .p) (ν .q)

/-- Instantiating an equivalent template means what the rebuilt node means, when `subs` gives
`p` and `q` the node's operand values. -/
theorem eval_instantiateTemplate {σ : OperatorMap uc} (hσ : TemplatesEquivalent σ)
    {key : Operator} {node : Formula uc} {subs : SubstitutionMap uc} {ν : VarName uc → Bool}
    (hnode : node.eval ν = key.apply (substAssignment subs ν .p) (substAssignment subs ν .q)) :
    (instantiateTemplate σ key node subs).eval ν = node.eval ν := by
  unfold instantiateTemplate
  rcases h : σ.lookup key with _ | t
  · rfl
  · rw [Formula.eval_substituteVariables, hσ key t h, hnode]

/-- **`substitute_operators` preserves the abstract semantics** on a map of templates each
equivalent to its key. -/
theorem Formula.eval_substituteOperatorsAux {σ : OperatorMap uc} (hσ : TemplatesEquivalent σ)
    (f : Formula uc) (ν : VarName uc → Bool) : (f.substituteOperatorsAux σ).eval ν = f.eval ν := by
  induction f with
  | var name => rfl
  | const value => exact eval_instantiateTemplate hσ rfl
  | neg first ih =>
    rw [Formula.substituteOperatorsAux, eval_instantiateTemplate hσ, Formula.eval_neg,
      Formula.eval_neg, ih]
    simp only [substAssignment, AList.lookup_insert, Option.elim_some, Operator.apply,
      Formula.eval_neg]
  | bin op first second ih₁ ih₂ =>
    rw [Formula.substituteOperatorsAux, eval_instantiateTemplate hσ, Formula.eval_bin,
      Formula.eval_bin, ih₁, ih₂]
    simp only [substAssignment, AList.lookup_insert, AList.lookup_insert_ne VarName.p_ne_q,
      Option.elim_some, Operator.apply, Formula.eval_bin]

/-- **Operator substitution with equivalent templates preserves meaning.** When every
template of the map is equivalent to its key (in each model `{'p': a, 'q': b}` it has the
key's truth table at `a` and `b`), `substitute_operators` accepts the map, and in every model
covering the variables of the formula and of its rewrite, `evaluate` gives both the same
value. -/
theorem substituteOperators_preserves_evaluate (σ : OperatorMap uc)
    (hequiv : ∀ entry ∈ σ.entries, ∀ a b : Bool,
      evaluate entry.2 (pqModel a b) = some (entry.1.apply a b))
    (f : Formula uc) :
    ∃ g, f.substituteOperators σ = some g ∧ ∀ M : Model uc, f.variables ⊆ Model.variables M →
      g.variables ⊆ Model.variables M → evaluate g M = evaluate f M := by
  have hlookup : ∀ op t, σ.lookup op = some t → ∀ a b : Bool,
      evaluate t (pqModel a b) = some (op.apply a b) := fun op t h =>
    hequiv ⟨op, t⟩ (AList.mem_lookup_iff.1 h)
  have hcheck : templatesOverPQ σ = true := List.all_eq_true.2 fun entry he => by
    refine decide_eq_true fun v hv => ?_
    have := Model.mem_variables.1
      (variables_subset_of_evaluate_eq_some (hequiv entry he false false) hv)
    simpa using mem_pqModel.1 this
  refine ⟨_, if_pos hcheck, fun M hf hg => ?_⟩
  rw [evaluate_of_subset hf, evaluate_of_subset hg, Formula.eval_substituteOperatorsAux
    fun op t h => eval_eq_apply_of_evaluate_pqModel (hlookup op t h)]

/-- The docstring's example: eliminating `&` from `((x&y)&~z)` with `~(~p|~q)`. -/
theorem substituteOperators_preserves_evaluate_docstring :
    let σ : OperatorMap .ascii := (∅ : OperatorMap .ascii).insert (.bin .and)
      (.neg (.bin .or (.neg (.var .p)) (.neg (.var .q))))
    let f : Formula .ascii :=
      .bin .and (.bin .and (.var ⟨['x'], rfl⟩) (.var ⟨['y'], rfl⟩)) (.neg (.var ⟨['z'], rfl⟩))
    (∀ entry ∈ σ.entries, ∀ a b : Bool,
      evaluate entry.2 (pqModel a b) = some (entry.1.apply a b)) ∧
    ∃ g, f.substituteOperators σ = some g ∧ ∀ M : Model .ascii, f.variables ⊆ Model.variables M →
      g.variables ⊆ Model.variables M → evaluate g M = evaluate f M :=
  ⟨by decide, substituteOperators_preserves_evaluate _ (by decide) _⟩

end Propositions
