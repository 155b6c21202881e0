import Propositions.Occurrences

/-!
# Propositions.Commutation

How the two rewrites of `propositions/syntax.py` combine: substituting variables and rewriting
operators commute, and two operator rewrites are one.

* `substituteOperators_substituteVariables`: `f.substitute_variables(τ).substitute_operators(σ)`
  is `f.substitute_operators(σ).substitute_variables(τ')` for every map `τ'` that sends each
  variable of `f` to its replacement under `τ` rewritten by `σ`.
* `substituteOperators_substituteOperators`: rewriting by an accepted `σ` and then by `σ'` is
  rewriting once by the map that sends each key of `σ` to its template rewritten by `σ'` and
  every other key of `σ'` to its own template.

Both need the hypothesis that every template of the map that rewrites an already substituted
formula (`σ` in the first, `σ'` in the second) uses only the markers its node binds
(`Operator.markers`), and it is genuinely required: with the template `p` for `T`,
rewriting `T` gives the variable `p`, which a later substitution replaces but an earlier one
never sees. The composition also needs `σ` to be accepted: a rejected template of `σ` can lose
its stray variable under `σ'`, so that the composed map is accepted where `σ` is not.

## Proof shape

One induction on the formula for each result. A node whose operator is not a key is rebuilt on
both sides. At a key, the two sides instantiate the same template, with the operands rewritten
after or before; `instantiateTemplate_substituteVariables` says these agree when the template
uses only bound markers, by the composition of substitutions
(`substituteVariables_substituteVariables`), and `instantiateTemplate_substituteOperatorsAux`
reduces the second rewrite of an instantiated template to the first result.
-/

namespace Propositions

variable {uc : UnicodeClasses}

/-- The operand maps of a node: each operand rewritten by `g`, entry by entry. -/
theorem lookup_empty_map {g : Formula uc → Formula uc} :
    ∀ v, (∅ : SubstitutionMap uc).lookup v = ((∅ : SubstitutionMap uc).lookup v).map g :=
  fun _ => rfl

theorem lookup_insert_map {s s' : SubstitutionMap uc} {g : Formula uc → Formula uc}
    {a : VarName uc} {b : Formula uc} (hs : ∀ v, s'.lookup v = (s.lookup v).map g) :
    ∀ v, (s'.insert a (g b)).lookup v = ((s.insert a b).lookup v).map g := fun v => by
  by_cases hv : v = a
  · subst hv
    rw [AList.lookup_insert, AList.lookup_insert, Option.map_some']
  · rw [AList.lookup_insert_ne hv, AList.lookup_insert_ne hv, hs v]

/-- Instantiating a template commutes with substituting into the operands, when the template
uses only markers that `subs` binds and `subs'` binds each of them to the substituted
operand. -/
theorem instantiateTemplate_substituteVariables {σ : OperatorMap uc} {key : Operator}
    {node node' : Formula uc} {subs subs' τ : SubstitutionMap uc}
    (hmarkers : ∀ t, σ.lookup key = some t → ∀ v ∈ t.variables, v ∈ subs)
    (hnode : key ∉ σ → node' = node.substituteVariables τ)
    (hsubs : ∀ v, subs'.lookup v = (subs.lookup v).map (Formula.substituteVariables τ)) :
    instantiateTemplate σ key node' subs' =
      (instantiateTemplate σ key node subs).substituteVariables τ := by
  unfold instantiateTemplate
  rcases h : σ.lookup key with _ | t
  · exact hnode (AList.lookup_eq_none.1 h)
  refine (substituteVariables_substituteVariables t subs τ subs' fun v hv => ?_).symm
  obtain ⟨g, hg⟩ := Option.isSome_iff_exists.1 (AList.lookup_isSome.2 (hmarkers t h v hv))
  rw [hsubs v, hg]
  rfl

theorem substituteOperatorsAux_substituteVariables {σ : OperatorMap uc}
    (hmarkers : ∀ op t, σ.lookup op = some t → t.variables ⊆ op.markers)
    (τ τ' : SubstitutionMap uc) (f : Formula uc)
    (hτ' : ∀ v ∈ f.variables,
      τ'.lookup v = (τ.lookup v).map (Formula.substituteOperatorsAux σ)) :
    (f.substituteVariables τ).substituteOperatorsAux σ =
      (f.substituteOperatorsAux σ).substituteVariables τ' := by
  induction f with
  | var name =>
    have h := hτ' name (by simp)
    rcases hτ : τ.lookup name with _ | g <;> rw [hτ] at h <;>
      simp only [Formula.substituteVariables, Formula.substituteOperatorsAux, hτ, h,
        Option.getD_none, Option.getD_some, Option.map_none', Option.map_some']
  | const value =>
    refine instantiateTemplate_substituteVariables (fun t ht v hv => ?_) (fun _ => rfl)
      lookup_empty_map
    exact absurd (hmarkers _ t ht hv) (Finset.not_mem_empty v)
  | neg first ih =>
    rw [Formula.substituteVariables, Formula.substituteOperatorsAux,
      Formula.substituteOperatorsAux, ih hτ']
    refine instantiateTemplate_substituteVariables (fun t ht v hv => ?_) (fun _ => rfl)
      (lookup_insert_map lookup_empty_map)
    have hp := hmarkers _ t ht hv
    simp only [Operator.markers, Finset.mem_singleton] at hp
    simp only [hp, AList.mem_insert, AList.not_mem_empty, or_false]
  | bin op first second ih₁ ih₂ =>
    simp only [Formula.variables_bin, Finset.mem_union] at hτ'
    rw [Formula.substituteVariables, Formula.substituteOperatorsAux,
      Formula.substituteOperatorsAux, ih₁ fun v hv => hτ' v (.inl hv),
      ih₂ fun v hv => hτ' v (.inr hv)]
    refine instantiateTemplate_substituteVariables (fun t ht v hv => ?_) (fun _ => rfl)
      (lookup_insert_map (lookup_insert_map lookup_empty_map))
    have hpq := hmarkers _ t ht hv
    simp only [Operator.markers, Finset.mem_insert, Finset.mem_singleton] at hpq
    simp only [AList.mem_insert, AList.not_mem_empty, or_false]
    exact hpq.symm

/-- **The two rewrites commute.** When every template of `σ` uses only the markers its node
binds, `f.substitute_variables(τ).substitute_operators(σ)` is
`f.substitute_operators(σ).substitute_variables(τ')` for every map `τ'` that sends each
variable of `f` to its replacement under `τ` rewritten by `σ` (and leaves the others). -/
theorem substituteOperators_substituteVariables (σ : OperatorMap uc) (τ τ' : SubstitutionMap uc)
    (f : Formula uc) (hmarkers : ∀ op t, σ.lookup op = some t → t.variables ⊆ op.markers)
    (hτ' : ∀ v ∈ f.variables,
      τ'.lookup v = (τ.lookup v).bind (Formula.substituteOperators σ)) :
    (f.substituteVariables τ).substituteOperators σ =
      (f.substituteOperators σ).map (Formula.substituteVariables τ') := by
  unfold Formula.substituteOperators at hτ' ⊢
  by_cases hσ : templatesOverPQ σ = true
  · simp only [hσ, if_true, Option.map_some'] at hτ' ⊢
    exact congrArg some (substituteOperatorsAux_substituteVariables hmarkers τ τ' f
      fun v hv => by rw [hτ' v hv]; cases τ.lookup v <;> rfl)
  · simp only [if_neg hσ, Option.map_none']

/-- The docstring's map `{'&': '~(~p|~q)'}` (De Morgan) after `{'x': '(y&z)'}` on `(x&~y)`:
both orders give `~(~~(~y|~z)|~~y)`. -/
theorem substituteOperators_substituteVariables_de_morgan :
    let σ : OperatorMap .ascii := (∅ : OperatorMap .ascii).insert (.bin .and)
      (.neg (.bin .or (.neg (.var .p)) (.neg (.var .q))))
    let x : VarName .ascii := ⟨['x'], rfl⟩
    let y : Formula .ascii := .var ⟨['y'], rfl⟩
    let z : Formula .ascii := .var ⟨['z'], rfl⟩
    let τ : SubstitutionMap .ascii := (∅ : SubstitutionMap .ascii).insert x (.bin .and y z)
    let τ' : SubstitutionMap .ascii :=
      (∅ : SubstitutionMap .ascii).insert x (.neg (.bin .or (.neg y) (.neg z)))
    let f : Formula .ascii := .bin .and (.var x) (.neg y)
    (∀ op t, σ.lookup op = some t → t.variables ⊆ op.markers) ∧
      (∀ v ∈ f.variables, τ'.lookup v = (τ.lookup v).bind (Formula.substituteOperators σ)) ∧
      (f.substituteVariables τ).substituteOperators σ =
        (f.substituteOperators σ).map (Formula.substituteVariables τ') := by
  intro σ x y z τ τ' f
  have hmarkers : ∀ op t, σ.lookup op = some t → t.variables ⊆ op.markers := fun op t h => by
    by_cases hop : op = .bin .and
    · subst hop
      simp only [σ, AList.lookup_insert, Option.some.injEq] at h
      subst h
      decide
    · simp only [σ, AList.lookup_insert_ne hop, AList.lookup_empty] at h
      cases h
  have hτ' : ∀ v ∈ f.variables,
      τ'.lookup v = (τ.lookup v).bind (Formula.substituteOperators σ) := by
    decide
  exact ⟨hmarkers, hτ', substituteOperators_substituteVariables σ τ τ' f hmarkers hτ'⟩

/-! ## Composing operator rewrites -/

theorem Operator.markers_subset (op : Operator) :
    (op.markers : Finset (VarName uc)) ⊆ {VarName.p, VarName.q} := by
  cases op <;> simp [Operator.markers]

/-- Rewriting an instantiated node a second time: at a key of `σ`, the rewritten template
instantiated with the rewritten operands (by the commutation above); elsewhere the node's
rewrite by `σ'`. Either way it is the node's rewrite by the composed map `ρ`. -/
theorem instantiateTemplate_substituteOperatorsAux {σ σ' ρ : OperatorMap uc} {key : Operator}
    {node node' : Formula uc} {subs subs' : SubstitutionMap uc}
    (hmarkers : ∀ op t, σ'.lookup op = some t → t.variables ⊆ op.markers)
    (hρ : ρ.lookup key =
      (σ.lookup key).elim (σ'.lookup key) fun t => some (t.substituteOperatorsAux σ'))
    (hnode : node.substituteOperatorsAux σ' = instantiateTemplate σ' key node' subs')
    (hsubs : ∀ v, subs'.lookup v = (subs.lookup v).map (Formula.substituteOperatorsAux σ')) :
    (instantiateTemplate σ key node subs).substituteOperatorsAux σ' =
      instantiateTemplate ρ key node' subs' := by
  unfold instantiateTemplate at hnode ⊢
  rcases h : σ.lookup key with _ | t <;> rw [h] at hρ <;> rw [hρ]
  · exact hnode
  · exact substituteOperatorsAux_substituteVariables hmarkers subs subs' t fun v _ => hsubs v

theorem substituteOperatorsAux_substituteOperatorsAux {σ σ' ρ : OperatorMap uc}
    (hmarkers : ∀ op t, σ'.lookup op = some t → t.variables ⊆ op.markers)
    (hρ : ∀ op, ρ.lookup op =
      (σ.lookup op).elim (σ'.lookup op) fun t => some (t.substituteOperatorsAux σ'))
    (f : Formula uc) :
    (f.substituteOperatorsAux σ).substituteOperatorsAux σ' = f.substituteOperatorsAux ρ := by
  induction f with
  | var name => rfl
  | const value =>
    exact instantiateTemplate_substituteOperatorsAux hmarkers (hρ _) rfl lookup_empty_map
  | neg first ih =>
    rw [Formula.substituteOperatorsAux, Formula.substituteOperatorsAux, ← ih]
    exact instantiateTemplate_substituteOperatorsAux hmarkers (hρ _) rfl
      (lookup_insert_map lookup_empty_map)
  | bin op first second ih₁ ih₂ =>
    rw [Formula.substituteOperatorsAux, Formula.substituteOperatorsAux, ← ih₁, ← ih₂]
    exact instantiateTemplate_substituteOperatorsAux hmarkers (hρ _) rfl
      (lookup_insert_map (lookup_insert_map lookup_empty_map))

/-- **Operator rewrites compose.** Rewriting operators by an accepted map `σ` and then by a map
`σ'` whose templates use only the markers their node binds is one rewrite by the composed map
`ρ`: each key of `σ` goes to its template rewritten by `σ'`, every other key of `σ'` keeps its
template. -/
theorem substituteOperators_substituteOperators (σ σ' ρ : OperatorMap uc) (f : Formula uc)
    (hσ : templatesOverPQ σ = true)
    (hmarkers : ∀ op t, σ'.lookup op = some t → t.variables ⊆ op.markers)
    (hρ : ∀ op, ρ.lookup op = (σ.lookup op).elim (σ'.lookup op) (Formula.substituteOperators σ')) :
    (f.substituteOperators σ).bind (Formula.substituteOperators σ') = f.substituteOperators ρ := by
  have hσ' : templatesOverPQ σ' = true := templatesOverPQ_of_forall fun op t h =>
    (hmarkers op t h).trans op.markers_subset
  have hρ' : ∀ op, ρ.lookup op =
      (σ.lookup op).elim (σ'.lookup op) fun t => some (t.substituteOperatorsAux σ') := fun op => by
    rw [hρ op, show Formula.substituteOperators σ' = _ from funext fun t => if_pos hσ']
  have hρpq : templatesOverPQ ρ = true := templatesOverPQ_of_forall fun op t h => by
    rw [hρ' op] at h
    rcases hs : σ.lookup op with _ | s <;> rw [hs] at h
    · exact variables_subset_of_templatesOverPQ hσ' h
    · rw [Option.elim_some, Option.some_inj] at h
      subst h
      exact (variables_substituteOperatorsAux_subset_of_markers hmarkers s).trans
        (variables_subset_of_templatesOverPQ hσ hs)
  simp only [Formula.substituteOperators, hσ, hσ', hρpq, if_true, Option.some_bind]
  exact congrArg some (substituteOperatorsAux_substituteOperatorsAux hmarkers hρ' f)

/-- Rewriting `(x-&(y&z))` into `~` and `|` in two steps, `{'-&': '~(p&q)'}` and then the
docstring's `{'&': '~(~p|~q)'}`, is one rewrite by `{'-&': '~~(~p|~q)', '&': '~(~p|~q)'}`. -/
theorem substituteOperators_substituteOperators_nand :
    let σ : OperatorMap .ascii := (∅ : OperatorMap .ascii).insert (.bin .nand)
      (.neg (.bin .and (.var .p) (.var .q)))
    let deMorgan : Formula .ascii := .neg (.bin .or (.neg (.var .p)) (.neg (.var .q)))
    let σ' : OperatorMap .ascii := (∅ : OperatorMap .ascii).insert (.bin .and) deMorgan
    let ρ : OperatorMap .ascii := σ'.insert (.bin .nand) (.neg deMorgan)
    let f : Formula .ascii :=
      .bin .nand (.var ⟨['x'], rfl⟩) (.bin .and (.var ⟨['y'], rfl⟩) (.var ⟨['z'], rfl⟩))
    templatesOverPQ σ = true ∧ (∀ op t, σ'.lookup op = some t → t.variables ⊆ op.markers) ∧
      (∀ op, ρ.lookup op = (σ.lookup op).elim (σ'.lookup op) (Formula.substituteOperators σ')) ∧
      (f.substituteOperators σ).bind (Formula.substituteOperators σ') =
        f.substituteOperators ρ := by
  intro σ deMorgan σ' ρ f
  have hσ : templatesOverPQ σ = true := by decide
  have hmarkers : ∀ op t, σ'.lookup op = some t → t.variables ⊆ op.markers := fun op t h => by
    by_cases hop : op = .bin .and
    · subst hop
      simp only [σ', AList.lookup_insert, Option.some.injEq] at h
      subst h
      decide
    · simp only [σ', AList.lookup_insert_ne hop, AList.lookup_empty] at h
      cases h
  have hρ : ∀ op,
      ρ.lookup op = (σ.lookup op).elim (σ'.lookup op) (Formula.substituteOperators σ') := by
    rintro ((_ | _) | _ | (_ | _ | _ | _ | _ | _ | _)) <;> decide
  exact ⟨hσ, hmarkers, hρ, substituteOperators_substituteOperators σ σ' ρ f hσ hmarkers hρ⟩

end Propositions
