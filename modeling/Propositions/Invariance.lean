import Propositions.Classify
import Propositions.Substitution

/-!
# Propositions.Invariance

What the classifiers `is_tautology`, `is_contradiction` and `is_satisfiable` of
`propositions/semantics.py` see of a formula, and how their verdicts move under
`substitute_variables`.

* `classifiers_eq_of_evaluate_eq`: the verdicts depend only on what `evaluate` gives the formula.
  Each classifier enumerates the models of the formula's own variables, so two formulas with
  different variables, `(p|~p)` and `T` say, are still classified alike when `evaluate` agrees on
  them in every model covering both.
* `classify_substituteVariables`: every substitution instance of a tautology is a tautology,
  of a contradiction a contradiction, and a satisfiable instance comes from a satisfiable
  formula.

## Proof shape

On its enumerated models `evaluate` cannot fail, so each classifier is `some` of a Boolean loop
over `all_models` (`isTautology_eq` and its siblings). `all_allModels_iff` and
`any_allModels_iff` read that loop as a statement about every assignment, since every
assignment agrees on the formula's variables with an enumerated model. The rest is the
abstract semantics: `Formula.eval_substituteVariables` for substitution, and for two formulas a
model over the union of their variables.
-/

namespace Propositions

variable {uc : UnicodeClasses}

/-! ## The classifiers as statements about assignments -/

theorem all_allModels_iff (f : Formula uc) (P : Bool → Bool) :
    ((allModels f.sortedVariables).all fun m => P (f.eval m.get)) = true ↔
      ∀ ν : VarName uc → Bool, P (f.eval ν) = true := by
  rw [List.all_eq_true]
  refine ⟨fun h ν => ?_, fun h m _ => h m.get⟩
  obtain ⟨m, hm, heq⟩ := exists_mem_allModels_eval_eq f ν
  exact heq ▸ h m hm

theorem any_allModels_iff (f : Formula uc) (P : Bool → Bool) :
    ((allModels f.sortedVariables).any fun m => P (f.eval m.get)) = true ↔
      ∃ ν : VarName uc → Bool, P (f.eval ν) = true := by
  rw [List.any_eq_true]
  refine ⟨fun ⟨m, _, h⟩ => ⟨m.get, h⟩, fun ⟨ν, h⟩ => ?_⟩
  obtain ⟨m, hm, heq⟩ := exists_mem_allModels_eval_eq f ν
  exact ⟨m, hm, heq ▸ h⟩

theorem isTautology_eq_some_true_iff (f : Formula uc) :
    isTautology f = some true ↔ ∀ ν : VarName uc → Bool, f.eval ν = true := by
  rw [isTautology_eq, Option.some_inj]
  exact all_allModels_iff f id

theorem isContradiction_eq_some_true_iff (f : Formula uc) :
    isContradiction f = some true ↔ ∀ ν : VarName uc → Bool, f.eval ν = false := by
  rw [isContradiction_eq, Option.some_inj, all_allModels_iff f (!·)]
  simp only [Bool.not_eq_true']

theorem isSatisfiable_eq_some_true_iff (f : Formula uc) :
    isSatisfiable f = some true ↔ ∃ ν : VarName uc → Bool, f.eval ν = true := by
  rw [isSatisfiable_eq, Option.some_inj]
  exact any_allModels_iff f id

/-! ## Formulas that mean the same -/

/-- Formulas with the same value under every assignment get the same three verdicts. -/
theorem classifiers_eq_of_eval_eq {f g : Formula uc}
    (h : ∀ ν : VarName uc → Bool, g.eval ν = f.eval ν) :
    isTautology g = isTautology f ∧ isContradiction g = isContradiction f ∧
      isSatisfiable g = isSatisfiable f := by
  have hall : ∀ P : Bool → Bool, ((allModels g.sortedVariables).all fun m => P (g.eval m.get)) =
      (allModels f.sortedVariables).all fun m => P (f.eval m.get) := fun P =>
    Bool.eq_iff_iff.2 (by rw [all_allModels_iff, all_allModels_iff]; simp only [h])
  have hany : ∀ P : Bool → Bool, ((allModels g.sortedVariables).any fun m => P (g.eval m.get)) =
      (allModels f.sortedVariables).any fun m => P (f.eval m.get) := fun P =>
    Bool.eq_iff_iff.2 (by rw [any_allModels_iff, any_allModels_iff]; simp only [h])
  refine ⟨?_, ?_, ?_⟩
  · rw [isTautology_eq, isTautology_eq]
    exact congrArg some (hall id)
  · rw [isContradiction_eq, isContradiction_eq]
    exact congrArg some (hall (!·))
  · rw [isSatisfiable_eq, isSatisfiable_eq]
    exact congrArg some (hany id)

/-- Formulas to which `evaluate` gives the same value in every model covering both have the
same value under every assignment: a model over the union of their variables realises it. -/
theorem eval_eq_of_evaluate_eq {f g : Formula uc}
    (h : ∀ M : Model uc, f.variables ⊆ Model.variables M → g.variables ⊆ Model.variables M →
      evaluate g M = evaluate f M) (ν : VarName uc → Bool) : g.eval ν = f.eval ν := by
  have hnd := Finset.sort_nodup (· ≤ ·) (f.variables ∪ g.variables)
  obtain ⟨m, hm, hagree⟩ := exists_mem_allModels_agree hnd ν
  have hcov := toFinset_subset_variables_of_mem_allModels hnd hm
  have hf : f.variables ⊆ Model.variables m := fun v hv => hcov (by simp [hv])
  have hg : g.variables ⊆ Model.variables m := fun v hv => hcov (by simp [hv])
  have hfg := h m hf hg
  rw [evaluate_of_subset hf, evaluate_of_subset hg, Option.some_inj] at hfg
  calc g.eval ν = g.eval m.get := g.eval_congr fun v hv => (hagree v (by simp [hv])).symm
    _ = f.eval m.get := hfg
    _ = f.eval ν := f.eval_congr fun v hv => hagree v (by simp [hv])

/-- **The classifiers see only meaning.** Two formulas to which `evaluate` gives the same value
in every model covering the variables of both get the same verdict from `is_tautology`, from
`is_contradiction` and from `is_satisfiable`, though each classifier enumerates the models of
its own formula's variables only. -/
theorem classifiers_eq_of_evaluate_eq {f g : Formula uc}
    (h : ∀ M : Model uc, f.variables ⊆ Model.variables M → g.variables ⊆ Model.variables M →
      evaluate g M = evaluate f M) :
    isTautology g = isTautology f ∧ isContradiction g = isContradiction f ∧
      isSatisfiable g = isSatisfiable f :=
  classifiers_eq_of_eval_eq (eval_eq_of_evaluate_eq h)

/-- `(p|~p)` and `T`: one variable against none, both tautologies. -/
theorem classifiers_eq_of_evaluate_eq_excluded_middle :
    let f : Formula .ascii := .const true
    let g : Formula .ascii := .bin .or (.var .p) (.neg (.var .p))
    (∀ M : Model .ascii, f.variables ⊆ Model.variables M → g.variables ⊆ Model.variables M →
      evaluate g M = evaluate f M) ∧
      isTautology g = isTautology f ∧ isContradiction g = isContradiction f ∧
        isSatisfiable g = isSatisfiable f := by
  intro f g
  have h : ∀ M : Model .ascii, f.variables ⊆ Model.variables M →
      g.variables ⊆ Model.variables M → evaluate g M = evaluate f M := fun M _ hg => by
    rw [evaluate_of_subset hg, evaluate_of_subset (Finset.empty_subset _)]
    simp [f, g, BinOp.apply]
  exact ⟨h, classifiers_eq_of_evaluate_eq h⟩

/-! ## Substitution instances -/

/-- **Substitution instances.** For every formula and every substitution map,
`f.substitute_variables(σ)` is a tautology when `f` is, a contradiction when `f` is, and
satisfiable only when `f` is. -/
theorem classify_substituteVariables (f : Formula uc) (σ : SubstitutionMap uc) :
    (isTautology f = some true → isTautology (f.substituteVariables σ) = some true) ∧
      (isContradiction f = some true →
        isContradiction (f.substituteVariables σ) = some true) ∧
      (isSatisfiable (f.substituteVariables σ) = some true → isSatisfiable f = some true) := by
  simp only [isTautology_eq_some_true_iff, isContradiction_eq_some_true_iff,
    isSatisfiable_eq_some_true_iff, Formula.eval_substituteVariables]
  exact ⟨fun h ν => h _, fun h ν => h _, fun ⟨ν, h⟩ => ⟨_, h⟩⟩

/-- Excluded middle `(p|~p)`, its contradiction `(p&~p)`, and the satisfiable `(p&q)`, each
under `{p: (q->r)}`. -/
theorem classify_substituteVariables_excluded_middle :
    let σ : SubstitutionMap .ascii := (∅ : SubstitutionMap .ascii).insert .p
      (.bin .implies (.var .q) (.var .r))
    let t : Formula .ascii := .bin .or (.var .p) (.neg (.var .p))
    let c : Formula .ascii := .bin .and (.var .p) (.neg (.var .p))
    let s : Formula .ascii := .bin .and (.var .p) (.var .q)
    isTautology t = some true ∧ isTautology (t.substituteVariables σ) = some true ∧
      isContradiction c = some true ∧ isContradiction (c.substituteVariables σ) = some true ∧
      isSatisfiable (s.substituteVariables σ) = some true ∧ isSatisfiable s = some true := by
  intro σ t c s
  have ht : isTautology t = some true :=
    (isTautology_eq_some_true_iff t).2 fun ν => by simp [t, BinOp.apply]
  have hc : isContradiction c = some true :=
    (isContradiction_eq_some_true_iff c).2 fun ν => by simp [c, BinOp.apply]
  have hs : isSatisfiable (s.substituteVariables σ) = some true :=
    (isSatisfiable_eq_some_true_iff _).2 ⟨fun _ => true, by decide⟩
  exact ⟨ht, (classify_substituteVariables t σ).1 ht, hc,
    (classify_substituteVariables c σ).2.1 hc, hs, (classify_substituteVariables s σ).2.2 hs⟩

end Propositions
