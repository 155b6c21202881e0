import Propositions.Substitution

/-!
# Propositions.Occurrences

`Formula.operators` from `propositions/syntax.py`, and what occurs in a formula after each of
the two substitutions.

* `variables_substituteVariables`: the variables of `f.substitute_variables(σ)` are those of
  `f` that are not keys, with the variables of the replacements of those that are.
* `operators_substituteVariables_eq_union`: its operators are those of `f` with those of the
  replacements of `f`'s variables.
* `operators_substituteOperators`: the operators of `f.substitute_operators(m)` are among those
  of `f` that are not keys and those of the templates of the keys `f` uses. Templates are
  instantiated after the operands are rewritten and never rewritten themselves, so when no
  template uses a key, no key is left.
* `substituteOperators_idempotent`: a formula with no key is returned unchanged, so with
  key-free templates a second rewrite changes nothing.
* `variables_substituteOperators`: the rewrite adds no variable but the markers `p`, `q` a
  template uses where its node does not bind them (`Operator.markers`).

## Proof shape

Both rest on the occurrences of a variable substitution, stated once as equalities with a
`biUnion` over the receiver's variables (`variables_substituteVariables_eq_biUnion`,
`operators_substituteVariables_eq_union`). For operators, `operatorsBound σ S` is the bound
`operators_substituteOperators` states for a formula with operators `S`; it grows with `S`, a
rebuilt node stays within it because its operator is not a key, and an instantiated template
stays within it because the template's operators are part of it and the operands' are by
induction. `variablesBound`
does the same for variables, with the markers a node binds taken out of its template's.
-/

namespace Propositions

variable {uc : UnicodeClasses}

/-! ## Variables -/

theorem union_biUnion {α β : Type} [DecidableEq α] [DecidableEq β] (s t : Finset α)
    (g : α → Finset β) : (s ∪ t).biUnion g = s.biUnion g ∪ t.biUnion g := by
  ext
  simp [or_and_right, exists_or]

/-- **Variables after `substitute_variables`.** The variables of `f` that are not keys of the
map, and the variables of the replacements of those that are. -/
theorem variables_substituteVariables (f : Formula uc) (σ : SubstitutionMap uc) :
    (f.substituteVariables σ).variables =
      f.variables \ σ.keys.toFinset ∪
        (f.variables ∩ σ.keys.toFinset).biUnion fun v => (σ.lookup v).elim ∅ Formula.variables := by
  rw [variables_substituteVariables_eq_biUnion]
  nth_rewrite 1 [← Finset.sdiff_union_inter f.variables σ.keys.toFinset]
  rw [union_biUnion]
  congr 1
  · refine (Finset.biUnion_congr rfl fun v hv => ?_).trans Finset.biUnion_singleton_eq_self
    rw [AList.lookup_eq_none.2 (by simpa using (Finset.mem_sdiff.1 hv).2)]
    rfl
  · refine Finset.biUnion_congr rfl fun v hv => ?_
    obtain ⟨g, hg⟩ := Option.isSome_iff_exists.1
      (AList.lookup_isSome.2 (by simpa using (Finset.mem_inter.1 hv).2))
    rw [hg]
    rfl

/-! ## `operators` -/

/-- `operators`: the constants and operators occurring in the formula. -/
def Formula.operators : Formula uc → Finset Operator
  | .var _ => ∅
  | .const value => {.const value}
  | .neg first => {.neg} ∪ first.operators
  | .bin op first second => {.bin op} ∪ first.operators ∪ second.operators

@[simp] theorem Formula.operators_var (name : VarName uc) :
    (Formula.var name).operators = ∅ := rfl

@[simp] theorem Formula.operators_const (value : Bool) :
    (Formula.const value : Formula uc).operators = {.const value} := rfl

@[simp] theorem Formula.operators_neg (first : Formula uc) :
    (Formula.neg first).operators = {.neg} ∪ first.operators := rfl

@[simp] theorem Formula.operators_bin (op : BinOp) (first second : Formula uc) :
    (Formula.bin op first second).operators = {.bin op} ∪ first.operators ∪ second.operators :=
  rfl

/-- **Operators after `substitute_variables`.** The operators of `f.substitute_variables(σ)`
are those of `f` with those of the replacements of `f`'s variables: a variable substitution
never removes an operator, and adds only what its replacements bring. -/
theorem operators_substituteVariables_eq_union (f : Formula uc) (σ : SubstitutionMap uc) :
    (f.substituteVariables σ).operators =
      f.operators ∪ f.variables.biUnion fun v => (σ.lookup v).elim ∅ Formula.operators := by
  induction f with
  | var name => rcases h : σ.lookup name with _ | g <;> simp [Formula.substituteVariables, h]
  | const value => simp [Formula.substituteVariables]
  | neg first ih => simp [Formula.substituteVariables, ih, Finset.union_assoc]
  | bin op first second ih₁ ih₂ =>
    simp only [Formula.substituteVariables, Formula.operators_bin, ih₁, ih₂,
      Formula.variables_bin, union_biUnion]
    ac_rfl

/-! ## Operators after `substitute_operators` -/

/-- The operators a rewrite by `σ` of a formula with operators `S` may contain: the operators
of `S` that are not keys, and the operators of the templates of those that are. -/
def operatorsBound (σ : OperatorMap uc) (S : Finset Operator) : Finset Operator :=
  S \ σ.keys.toFinset ∪
    (S ∩ σ.keys.toFinset).biUnion fun op => (σ.lookup op).elim ∅ Formula.operators

theorem operatorsBound_mono {σ : OperatorMap uc} {S T : Finset Operator} (h : S ⊆ T) :
    operatorsBound σ S ⊆ operatorsBound σ T :=
  Finset.union_subset_union (Finset.sdiff_subset_sdiff h le_rfl)
    (Finset.biUnion_subset_biUnion_of_subset_left _ (Finset.inter_subset_inter_right h))

theorem singleton_subset_operatorsBound {σ : OperatorMap uc} {S : Finset Operator}
    {op : Operator} (hS : op ∈ S) (hop : op ∉ σ) : {op} ⊆ operatorsBound σ S := by
  rw [Finset.singleton_subset_iff, operatorsBound, Finset.mem_union, Finset.mem_sdiff,
    List.mem_toFinset]
  exact .inl ⟨hS, hop⟩

theorem template_subset_operatorsBound {σ : OperatorMap uc} {S : Finset Operator}
    {op : Operator} {t : Formula uc} (hS : op ∈ S) (h : σ.lookup op = some t) :
    t.operators ⊆ operatorsBound σ S := by
  have hK : op ∈ S ∩ σ.keys.toFinset :=
    Finset.mem_inter.2 ⟨hS, List.mem_toFinset.2 (AList.lookup_isSome.1 (by rw [h]; rfl))⟩
  have := Finset.subset_biUnion_of_mem (fun op => (σ.lookup op).elim ∅ Formula.operators) hK
  dsimp only at this
  rw [h, Option.elim_some] at this
  exact this.trans Finset.subset_union_right

/-- The rewrite of one node stays within the bound: a rebuilt node when its operator is not a
key, an instantiated template whose operands are within the bound when it is. -/
theorem operators_instantiateTemplate_subset {σ : OperatorMap uc} {key : Operator}
    {node : Formula uc} {subs : SubstitutionMap uc} {S : Finset Operator} (hkey : key ∈ S)
    (hnode : key ∉ σ → node.operators ⊆ operatorsBound σ S)
    (hsubs : ∀ v g, subs.lookup v = some g → g.operators ⊆ operatorsBound σ S) :
    (instantiateTemplate σ key node subs).operators ⊆ operatorsBound σ S := by
  unfold instantiateTemplate
  rcases h : σ.lookup key with _ | t
  · exact hnode (AList.lookup_eq_none.1 h)
  · rw [operators_substituteVariables_eq_union]
    refine Finset.union_subset (template_subset_operatorsBound hkey h)
      (Finset.biUnion_subset.2 fun v _ => ?_)
    rcases hv : subs.lookup v with _ | g
    · exact Finset.empty_subset _
    · exact hsubs v g hv

theorem forall_lookup_empty {P : Formula uc → Prop} :
    ∀ v g, (∅ : SubstitutionMap uc).lookup v = some g → P g := fun v g hg => by
  rw [AList.lookup_empty] at hg
  cases hg

/-- A property of every replacement survives inserting one more replacement that has it. -/
theorem forall_lookup_insert {P : Formula uc → Prop} {s : SubstitutionMap uc} {a : VarName uc}
    {b : Formula uc} (hb : P b) (hs : ∀ v g, s.lookup v = some g → P g) :
    ∀ v g, (s.insert a b).lookup v = some g → P g := fun v g h => by
  by_cases hv : v = a
  · subst hv
    rw [AList.lookup_insert] at h
    exact Option.some.inj h ▸ hb
  · rw [AList.lookup_insert_ne hv] at h
    exact hs v g h

/-- The operators of the rewrite are within the bound of the formula's operators. -/
theorem operators_substituteOperatorsAux_subset (σ : OperatorMap uc) (f : Formula uc) :
    (f.substituteOperatorsAux σ).operators ⊆ operatorsBound σ f.operators := by
  induction f with
  | var name => exact Finset.empty_subset _
  | const value =>
    exact operators_instantiateTemplate_subset (by simp)
      (singleton_subset_operatorsBound (by simp)) forall_lookup_empty
  | neg first ih =>
    have hfirst := ih.trans (operatorsBound_mono
      (Finset.subset_union_right : first.operators ⊆ {.neg} ∪ first.operators))
    exact operators_instantiateTemplate_subset (by simp)
      (fun h => Finset.union_subset (singleton_subset_operatorsBound (by simp) h) hfirst)
      (forall_lookup_insert hfirst forall_lookup_empty)
  | bin op first second ih₁ ih₂ =>
    have hfirst := ih₁.trans (operatorsBound_mono
      (Finset.subset_union_right.trans Finset.subset_union_left :
        first.operators ⊆ {.bin op} ∪ first.operators ∪ second.operators))
    have hsecond := ih₂.trans (operatorsBound_mono
      (Finset.subset_union_right : second.operators ⊆ {.bin op} ∪ first.operators ∪ _))
    exact operators_instantiateTemplate_subset (by simp)
      (fun h => Finset.union_subset (Finset.union_subset
        (singleton_subset_operatorsBound (by simp) h) hfirst) hsecond)
      (forall_lookup_insert hsecond (forall_lookup_insert hfirst forall_lookup_empty))

/-- With templates that contain no key, no key is left after the rewrite. -/
theorem not_mem_of_mem_operators_substituteOperatorsAux {σ : OperatorMap uc} (f : Formula uc)
    (htemplates : ∀ op t, σ.lookup op = some t → ∀ op' ∈ t.operators, op' ∉ σ) :
    ∀ op ∈ (f.substituteOperatorsAux σ).operators, op ∉ σ := fun op hop hK => by
  have := operators_substituteOperatorsAux_subset σ f hop
  simp only [operatorsBound, Finset.mem_union, Finset.mem_sdiff, Finset.mem_biUnion,
    List.mem_toFinset] at this
  rcases this with ⟨-, hnot⟩ | ⟨op', -, hop'⟩
  · exact hnot hK
  · rcases h : σ.lookup op' with _ | t <;> rw [h] at hop'
    · exact absurd hop' (Finset.not_mem_empty op)
    · exact htemplates op' t h op hop' hK

/-- **Operator elimination.** On a map `substitute_operators` accepts, the operators of the
result are among the operators of the formula that are not keys and the operators of the
templates of the keys the formula uses; so when no template contains a key, no key occurs in
the result. -/
theorem operators_substituteOperators (σ : OperatorMap uc) (f : Formula uc)
    (hσ : templatesOverPQ σ = true) :
    ∃ g, f.substituteOperators σ = some g ∧
      g.operators ⊆ f.operators \ σ.keys.toFinset ∪
        (f.operators ∩ σ.keys.toFinset).biUnion (fun op => (σ.lookup op).elim ∅ Formula.operators) ∧
      ((∀ op t, σ.lookup op = some t → ∀ op' ∈ t.operators, op' ∉ σ) →
        ∀ op ∈ g.operators, op ∉ σ) :=
  ⟨_, if_pos hσ, operators_substituteOperatorsAux_subset σ f,
    not_mem_of_mem_operators_substituteOperatorsAux f⟩

/-- The docstring's example: the template `~(~p|~q)` for `&` uses no key, so no `&` is left. -/
theorem operators_substituteOperators_docstring :
    let σ : OperatorMap .ascii := (∅ : OperatorMap .ascii).insert (.bin .and)
      (.neg (.bin .or (.neg (.var .p)) (.neg (.var .q))))
    let f : Formula .ascii :=
      .bin .and (.bin .and (.var ⟨['x'], rfl⟩) (.var ⟨['y'], rfl⟩)) (.neg (.var ⟨['z'], rfl⟩))
    templatesOverPQ σ = true ∧
      ∃ g, f.substituteOperators σ = some g ∧
        g.operators ⊆ f.operators \ σ.keys.toFinset ∪
          (f.operators ∩ σ.keys.toFinset).biUnion
            (fun op => (σ.lookup op).elim ∅ Formula.operators) ∧
        ((∀ op t, σ.lookup op = some t → ∀ op' ∈ t.operators, op' ∉ σ) →
          ∀ op ∈ g.operators, op ∉ σ) :=
  ⟨by decide, operators_substituteOperators _ _ (by decide)⟩

/-! ## Rewriting twice -/

/-- A formula none of whose operators is a key is left as it is. -/
theorem substituteOperatorsAux_of_forall_not_mem {σ : OperatorMap uc} {f : Formula uc}
    (h : ∀ op ∈ f.operators, op ∉ σ) : f.substituteOperatorsAux σ = f := by
  have hnode : ∀ {key node} {subs : SubstitutionMap uc}, key ∉ σ →
      instantiateTemplate σ key node subs = node := fun hkey => by
    rw [instantiateTemplate, AList.lookup_eq_none.2 hkey]
  induction f with
  | var name => rfl
  | const value => exact hnode (h _ (by simp))
  | neg first ih =>
    rw [Formula.substituteOperatorsAux, ih fun op hop => h op (by simp [hop]),
      hnode (h _ (by simp))]
  | bin op first second ih₁ ih₂ =>
    rw [Formula.substituteOperatorsAux, ih₁ fun op hop => h op (by simp [hop]),
      ih₂ fun op hop => h op (by simp [hop]), hnode (h _ (by simp))]

/-- **Rewriting twice.** On a map `substitute_operators` accepts, a formula in which no key
occurs is returned unchanged; so when no template contains a key, the rewrite is idempotent:
rewriting its result again changes nothing. -/
theorem substituteOperators_idempotent (σ : OperatorMap uc) (f : Formula uc)
    (hσ : templatesOverPQ σ = true) :
    ((∀ op ∈ f.operators, op ∉ σ) → f.substituteOperators σ = some f) ∧
      ((∀ op t, σ.lookup op = some t → ∀ op' ∈ t.operators, op' ∉ σ) →
        ∃ g, f.substituteOperators σ = some g ∧ g.substituteOperators σ = some g) := by
  refine ⟨fun h => ?_, fun htemplates => ⟨_, if_pos hσ, ?_⟩⟩
  · rw [Formula.substituteOperators, if_pos hσ, substituteOperatorsAux_of_forall_not_mem h]
  · rw [Formula.substituteOperators, if_pos hσ, substituteOperatorsAux_of_forall_not_mem
      (not_mem_of_mem_operators_substituteOperatorsAux f htemplates)]

/-- Eliminating `&` with `~(~p|~q)`: `~(x|y)` has no `&` and stays, and the rewrite of
`((x&y)&~z)` is a fixed point. -/
theorem substituteOperators_idempotent_docstring :
    let σ : OperatorMap .ascii := (∅ : OperatorMap .ascii).insert (.bin .and)
      (.neg (.bin .or (.neg (.var .p)) (.neg (.var .q))))
    let x : Formula .ascii := .var ⟨['x'], rfl⟩
    let y : Formula .ascii := .var ⟨['y'], rfl⟩
    let f : Formula .ascii := .neg (.bin .or x y)
    let g : Formula .ascii := .bin .and (.bin .and x y) (.neg (.var ⟨['z'], rfl⟩))
    templatesOverPQ σ = true ∧ (∀ op ∈ f.operators, op ∉ σ) ∧
      f.substituteOperators σ = some f ∧
      (∀ op t, σ.lookup op = some t → ∀ op' ∈ t.operators, op' ∉ σ) ∧
      ∃ g', g.substituteOperators σ = some g' ∧ g'.substituteOperators σ = some g' := by
  intro σ x y f g
  have hσ : templatesOverPQ σ = true := by decide
  have hf : ∀ op ∈ f.operators, op ∉ σ := by decide
  have ht : ∀ op t, σ.lookup op = some t → ∀ op' ∈ t.operators, op' ∉ σ := fun op t h => by
    by_cases hop : op = .bin .and
    · subst hop
      simp only [σ, AList.lookup_insert, Option.some.injEq] at h
      subst h
      decide
    · simp only [σ, AList.lookup_insert_ne hop, AList.lookup_empty] at h
      cases h
  exact ⟨hσ, hf, (substituteOperators_idempotent σ f hσ).1 hf, ht,
    (substituteOperators_idempotent σ g hσ).2 ht⟩

/-! ## Variables after `substitute_operators` -/

/-- The operand markers `substitute_operators` binds when it instantiates a template at a node
with this operator: `subs['p']` for a first operand and `subs['q']` for a second. -/
def Operator.markers : Operator → Finset (VarName uc)
  | .const _ => ∅
  | .neg => {VarName.p}
  | .bin _ => {VarName.p, VarName.q}

/-- The variables a rewrite by `σ` of a formula with variables `V` and operators `S` may
contain: those of `V`, and the markers a template of an operator of `S` uses but the node does
not bind. -/
def variablesBound (σ : OperatorMap uc) (V : Finset (VarName uc)) (S : Finset Operator) :
    Finset (VarName uc) :=
  V ∪ S.biUnion fun op => (σ.lookup op).elim ∅ fun t => t.variables \ op.markers

theorem variablesBound_mono {σ : OperatorMap uc} {V W : Finset (VarName uc)}
    {S T : Finset Operator} (hV : V ⊆ W) (hS : S ⊆ T) :
    variablesBound σ V S ⊆ variablesBound σ W T :=
  Finset.union_subset_union hV (Finset.biUnion_subset_biUnion_of_subset_left _ hS)

/-- The rewrite of one node stays within the bound: the rebuilt node when its operator is not a
key; when it is, the template's variables that `subs` binds give way to the rewritten operands
and the others are unbound markers. -/
theorem variables_instantiateTemplate_subset {σ : OperatorMap uc} {key : Operator}
    {node : Formula uc} {subs : SubstitutionMap uc} {V : Finset (VarName uc)}
    {S : Finset Operator} (hkey : key ∈ S) (hmarkers : ∀ v, v ∈ subs ↔ v ∈ key.markers)
    (hnode : key ∉ σ → node.variables ⊆ variablesBound σ V S)
    (hsubs : ∀ v g, subs.lookup v = some g → g.variables ⊆ variablesBound σ V S) :
    (instantiateTemplate σ key node subs).variables ⊆ variablesBound σ V S := by
  unfold instantiateTemplate
  rcases h : σ.lookup key with _ | t
  · exact hnode (AList.lookup_eq_none.1 h)
  rw [variables_substituteVariables_eq_biUnion]
  refine Finset.biUnion_subset.2 fun v hv => ?_
  rcases hv' : subs.lookup v with _ | g
  · have hfree : v ∈ t.variables \ key.markers :=
      Finset.mem_sdiff.2 ⟨hv, fun hm => AList.lookup_eq_none.1 hv' ((hmarkers v).2 hm)⟩
    have := Finset.subset_biUnion_of_mem
      (fun op => (σ.lookup op).elim ∅ fun t => t.variables \ op.markers) hkey
    dsimp only at this
    rw [h, Option.elim_some] at this
    exact Finset.singleton_subset_iff.2 (Finset.mem_union_right _ (this hfree))
  · exact hsubs v g hv'

/-- The variables of the rewrite are within the bound of the formula's variables and
operators. -/
theorem variables_substituteOperatorsAux_subset (σ : OperatorMap uc) (f : Formula uc) :
    (f.substituteOperatorsAux σ).variables ⊆ variablesBound σ f.variables f.operators := by
  induction f with
  | var name => exact Finset.subset_union_left
  | const value =>
    exact variables_instantiateTemplate_subset (by simp) (by simp [Operator.markers])
      (fun _ => by simp) forall_lookup_empty
  | neg first ih =>
    have hfirst := ih.trans (variablesBound_mono le_rfl
      (Finset.subset_union_right : first.operators ⊆ {.neg} ∪ first.operators))
    exact variables_instantiateTemplate_subset (by simp) (fun v => by
        simp only [AList.mem_insert, AList.not_mem_empty, or_false, Operator.markers,
          Finset.mem_singleton])
      (fun _ => hfirst) (forall_lookup_insert hfirst forall_lookup_empty)
  | bin op first second ih₁ ih₂ =>
    have hfirst := ih₁.trans (variablesBound_mono
      (Finset.subset_union_left : first.variables ⊆ first.variables ∪ second.variables)
      (Finset.subset_union_right.trans Finset.subset_union_left :
        first.operators ⊆ {.bin op} ∪ first.operators ∪ second.operators))
    have hsecond := ih₂.trans (variablesBound_mono
      (Finset.subset_union_right : second.variables ⊆ first.variables ∪ second.variables)
      (Finset.subset_union_right : second.operators ⊆ {.bin op} ∪ first.operators ∪ _))
    exact variables_instantiateTemplate_subset (by simp) (fun v => by
        simp only [AList.mem_insert, AList.not_mem_empty, or_false, Operator.markers,
          Finset.mem_insert, Finset.mem_singleton]
        exact or_comm)
      (fun _ => Finset.union_subset hfirst hsecond)
      (forall_lookup_insert hsecond (forall_lookup_insert hfirst forall_lookup_empty))

theorem variables_subset_of_templatesOverPQ {σ : OperatorMap uc} (hσ : templatesOverPQ σ = true)
    {op : Operator} {t : Formula uc} (h : σ.lookup op = some t) :
    t.variables ⊆ {VarName.p, VarName.q} :=
  of_decide_eq_true (List.all_eq_true.1 hσ ⟨op, t⟩ (AList.mem_lookup_iff.1 h))

theorem templatesOverPQ_of_forall {σ : OperatorMap uc}
    (h : ∀ op t, σ.lookup op = some t → t.variables ⊆ {VarName.p, VarName.q}) :
    templatesOverPQ σ = true :=
  List.all_eq_true.2 fun ⟨op, t⟩ hmem => decide_eq_true (h op t (AList.mem_lookup_iff.2 hmem))

/-- With templates that use only the markers their node binds, a rewrite adds no variable. -/
theorem variables_substituteOperatorsAux_subset_of_markers {σ : OperatorMap uc}
    (hmarkers : ∀ op t, σ.lookup op = some t → t.variables ⊆ op.markers) (f : Formula uc) :
    (f.substituteOperatorsAux σ).variables ⊆ f.variables := by
  refine (variables_substituteOperatorsAux_subset σ f).trans
    (Finset.union_subset le_rfl (Finset.biUnion_subset.2 fun op _ => ?_))
  rcases h : σ.lookup op with _ | t
  · exact Finset.empty_subset _
  · rw [Option.elim_some, Finset.sdiff_eq_empty_iff_subset.2 (hmarkers op t h)]
    exact Finset.empty_subset _

/-- **Variables after `substitute_operators`.** On a map `substitute_operators` accepts, the
variables of the result are those of the formula and the markers `p`, `q` that a template of
one of the formula's operators uses but the node it replaces does not bind (`p` or `q` in the
template of a constant, `q` in that of `~`). So no variable but `p` and `q` is ever added, and
none at all when every template uses only the markers its node binds. -/
theorem variables_substituteOperators (σ : OperatorMap uc) (f : Formula uc)
    (hσ : templatesOverPQ σ = true) :
    ∃ g, f.substituteOperators σ = some g ∧
      g.variables ⊆ f.variables ∪
        f.operators.biUnion (fun op => (σ.lookup op).elim ∅ fun t => t.variables \ op.markers) ∧
      g.variables ⊆ f.variables ∪ {VarName.p, VarName.q} ∧
      ((∀ op t, σ.lookup op = some t → t.variables ⊆ op.markers) →
        g.variables ⊆ f.variables) := by
  have hbound := variables_substituteOperatorsAux_subset σ f
  refine ⟨_, if_pos hσ, hbound, hbound.trans (Finset.union_subset_union le_rfl ?_),
    fun hmarkers => variables_substituteOperatorsAux_subset_of_markers hmarkers f⟩
  refine Finset.biUnion_subset.2 fun op _ => ?_
  rcases h : σ.lookup op with _ | t
  · exact Finset.empty_subset _
  · exact Finset.sdiff_subset.trans (variables_subset_of_templatesOverPQ hσ h)

/-- The template `(p|~p)` for `T` uses a marker its constant node does not bind: rewriting
`(x&T)` adds the variable `p`. -/
theorem variables_substituteOperators_excluded_middle :
    let σ : OperatorMap .ascii := (∅ : OperatorMap .ascii).insert (.const true)
      (.bin .or (.var .p) (.neg (.var .p)))
    let f : Formula .ascii := .bin .and (.var ⟨['x'], rfl⟩) (.const true)
    templatesOverPQ σ = true ∧
      ∃ g, f.substituteOperators σ = some g ∧
        g.variables ⊆ f.variables ∪
          f.operators.biUnion (fun op => (σ.lookup op).elim ∅ fun t => t.variables \ op.markers) ∧
        g.variables ⊆ f.variables ∪ {VarName.p, VarName.q} ∧
        ((∀ op t, σ.lookup op = some t → t.variables ⊆ op.markers) →
          g.variables ⊆ f.variables) :=
  ⟨by decide, variables_substituteOperators _ _ (by decide)⟩

end Propositions
