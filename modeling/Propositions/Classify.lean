import Propositions.Models
import Mathlib.Data.Finset.Sort

/-!
# Propositions.Classify

`is_tautology`, `is_contradiction` and `is_satisfiable`: each runs `evaluate` over
`all_models(sorted(formula.variables()))` and stops at the first model that decides.

Every enumerated model covers the formula's variables, so `evaluate` never fails there and
returns `Formula.eval` (`evaluate_of_subset`). Every covering model agrees on the formula's
variables with one of the enumerated models, the one of the mask `maskOf` reads off it; by
`Formula.eval_congr` the two give the formula the same value. So the loops decide the
quantifiers over all covering models.
-/

namespace Propositions

variable {uc : UnicodeClasses}

/-- The formula's variable names in sorted order, `sorted(list(formula.variables()))`. -/
def Formula.sortedVariables (f : Formula uc) : List (VarName uc) :=
  f.variables.sort (· ≤ ·)

/-- `is_tautology`: `false` at the first model in which the formula is false. -/
def isTautology (formula : Formula uc) : Option Bool :=
  (allModels formula.sortedVariables).allM fun m => evaluate formula m

/-- `is_contradiction`: `false` at the first model in which the formula is true. -/
def isContradiction (formula : Formula uc) : Option Bool :=
  (allModels formula.sortedVariables).allM fun m => (evaluate formula m).map (!·)

/-- `is_satisfiable`: `true` at the first model in which the formula is true. -/
def isSatisfiable (formula : Formula uc) : Option Bool :=
  (allModels formula.sortedVariables).anyM fun m => evaluate formula m

/-! ## The loops on models where `evaluate` cannot fail -/

theorem allM_of_forall_eq_some {α : Type} (l : List α) (q : α → Option Bool) (p : α → Bool)
    (h : ∀ x ∈ l, q x = some (p x)) : l.allM q = some (l.all p) := by
  induction l with
  | nil => rfl
  | cons a l ih =>
    simp only [List.allM, h a (List.mem_cons_self a l), List.all_cons]
    cases p a
    · rfl
    · exact ih fun x hx => h x (List.mem_cons_of_mem a hx)

theorem anyM_of_forall_eq_some {α : Type} (l : List α) (q : α → Option Bool) (p : α → Bool)
    (h : ∀ x ∈ l, q x = some (p x)) : l.anyM q = some (l.any p) := by
  induction l with
  | nil => rfl
  | cons a l ih =>
    simp only [List.anyM, h a (List.mem_cons_self a l), List.any_cons]
    cases p a
    · exact ih fun x hx => h x (List.mem_cons_of_mem a hx)
    · rfl

/-! ## The enumerated models -/

theorem nodup_sortedVariables (f : Formula uc) : f.sortedVariables.Nodup :=
  Finset.sort_nodup _ _

@[simp] theorem mem_sortedVariables {f : Formula uc} {v : VarName uc} :
    v ∈ f.sortedVariables ↔ v ∈ f.variables :=
  Finset.mem_sort _

/-- Every model enumerated for a formula covers its variables. -/
theorem variables_subset_of_mem_allModels {f : Formula uc} {m : Model uc}
    (hm : m ∈ allModels f.sortedVariables) : f.variables ⊆ Model.variables m := fun _ hv =>
  toFinset_subset_variables_of_mem_allModels (nodup_sortedVariables f) hm
    (List.mem_toFinset.2 (mem_sortedVariables.2 hv))

/-- Every value a formula takes under an assignment, it takes in an enumerated model. -/
theorem exists_mem_allModels_eval_eq (f : Formula uc) (ν : VarName uc → Bool) :
    ∃ m ∈ allModels f.sortedVariables, f.eval m.get = f.eval ν := by
  obtain ⟨m, hm, hagree⟩ := exists_mem_allModels_agree (nodup_sortedVariables f) ν
  exact ⟨m, hm, f.eval_congr fun v hv => hagree v (mem_sortedVariables.2 hv)⟩

/-- On the enumerated models `evaluate` returns the abstract value. -/
theorem evaluate_of_mem_allModels {f : Formula uc} {m : Model uc}
    (hm : m ∈ allModels f.sortedVariables) : evaluate f m = some (f.eval m.get) :=
  evaluate_of_subset (variables_subset_of_mem_allModels hm)

theorem isTautology_eq (f : Formula uc) :
    isTautology f = some ((allModels f.sortedVariables).all fun m => f.eval m.get) :=
  allM_of_forall_eq_some _ _ _ fun _ hm => evaluate_of_mem_allModels hm

theorem isContradiction_eq (f : Formula uc) :
    isContradiction f = some ((allModels f.sortedVariables).all fun m => !f.eval m.get) :=
  allM_of_forall_eq_some _ _ _ fun _ hm => by rw [evaluate_of_mem_allModels hm]; rfl

theorem isSatisfiable_eq (f : Formula uc) :
    isSatisfiable f = some ((allModels f.sortedVariables).any fun m => f.eval m.get) :=
  anyM_of_forall_eq_some _ _ _ fun _ hm => evaluate_of_mem_allModels hm

/-- A property holds of the formula's value in every covering model exactly when it holds in
every enumerated model. -/
theorem forall_covering_iff (f : Formula uc) (P : Bool → Prop) :
    (∀ M : Model uc, f.variables ⊆ Model.variables M → P (f.eval M.get)) ↔
      ∀ m ∈ allModels f.sortedVariables, P (f.eval m.get) := by
  refine ⟨fun h m hm => h m (variables_subset_of_mem_allModels hm), fun h M _ => ?_⟩
  obtain ⟨m, hm, heq⟩ := exists_mem_allModels_eval_eq f M.get
  exact heq ▸ h m hm

/-- **The classifiers decide their semantic definitions.** `is_tautology(f)` is `True` exactly
when `f` is true in every model covering its variables, `is_contradiction(f)` exactly when it
is false in every such model, and `is_satisfiable(f)` exactly when it is true in one. Hence
`is_tautology(f) == not is_satisfiable(~f)` and `is_contradiction(f) == not is_satisfiable(f)`. -/
theorem classifiers_decide_semantics (f : Formula uc) :
    (isTautology f = some true ↔
      ∀ M : Model uc, f.variables ⊆ Model.variables M → evaluate f M = some true) ∧
    (isContradiction f = some true ↔
      ∀ M : Model uc, f.variables ⊆ Model.variables M → evaluate f M = some false) ∧
    (isSatisfiable f = some true ↔
      ∃ M : Model uc, f.variables ⊆ Model.variables M ∧ evaluate f M = some true) ∧
    isTautology f = (isSatisfiable (.neg f)).map (!·) ∧
    isContradiction f = (isSatisfiable f).map (!·) := by
  have hcov : ∀ b, (∀ M : Model uc, f.variables ⊆ Model.variables M → evaluate f M = some b) ↔
      ∀ m ∈ allModels f.sortedVariables, f.eval m.get = b := fun b => by
    rw [← forall_covering_iff f (· = b)]
    exact forall₂_congr fun M hM => by rw [evaluate_of_subset hM, Option.some.injEq]
  refine ⟨?_, ?_, ?_, ?_, ?_⟩
  · simp [isTautology_eq, hcov]
  · simp [isContradiction_eq, hcov]
  · rw [isSatisfiable_eq, Option.some.injEq, List.any_eq_true]
    constructor
    · rintro ⟨m, hm, h⟩
      exact ⟨m, variables_subset_of_mem_allModels hm, by rw [evaluate_of_mem_allModels hm, h]⟩
    · rintro ⟨M, hM, h⟩
      obtain ⟨m, hm, heq⟩ := exists_mem_allModels_eval_eq f M.get
      rw [evaluate_of_subset hM, Option.some.injEq] at h
      exact ⟨m, hm, heq.trans h⟩
  · simp [isTautology_eq, isSatisfiable_eq, Formula.sortedVariables, List.all_eq_not_any_not]
  · simp [isContradiction_eq, isSatisfiable_eq, List.all_eq_not_any_not]

end Propositions
