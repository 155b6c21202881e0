import Propositions.Models
import Mathlib.Data.List.Sort

/-!
# Propositions.Synthesis

`synthesize` and `synthesize_cnf`: a formula in disjunctive or conjunctive normal form with a
given truth table over `all_models(variables)`.

The two pairs of source functions are duals of each other and are modelled by one definition
each, with parameters:

* `clauseOf` is `_synthesize_for_model` (an `&`-chain of the literals true in the model) and
  `_synthesize_for_all_except_model` (an `|`-chain of the literals false in it);
* `synthesizeNormalForm` is `synthesize` (an `|`-chain of the clauses of the models whose value
  is `True`) and `synthesize_cnf` (an `&`-chain of the clauses of those whose value is `False`).

## Proof shape

A left-nested chain evaluates to the fold of its operator (`eval_foldl_bin`). A minterm is
true exactly on the models that agree with its model on the keys (`eval_synthesizeForModel`),
a maxterm false exactly there. Two models of `all_models` over distinct names agree on the
names only when they are the same model (`eq_of_modelOfMask_agree`), so at the `k`-th model the
chain of clauses sees exactly one clause that can decide it: the `k`-th model's own, present
exactly when `values[k]` is the selected value.
-/

namespace Propositions

variable {uc : UnicodeClasses}

/-! ## Chains of binary operators -/

/-- Whether the formula is a literal: a variable name or a negated variable name. -/
def Formula.isLiteral : Formula uc → Bool
  | .var _ => true
  | .neg (.var _) => true
  | _ => false

/-- Whether the formula is a left-nested chain `((f₁ op f₂) op …) op fₙ`, `n ≥ 1`, of formulas
satisfying `item`. -/
def Formula.isChain (op : BinOp) (item : Formula uc → Bool) : Formula uc → Bool
  | f@(.bin op' first second) => item f || (op' == op && first.isChain op item && item second)
  | f => item f

theorem Formula.isChain_of_item {op : BinOp} {item : Formula uc → Bool} {f : Formula uc}
    (h : item f = true) : f.isChain op item = true := by
  cases f <;> simp [Formula.isChain, h]

theorem isChain_foldl_bin {α : Type} (op : BinOp) (item : Formula uc → Bool)
    (g : α → Formula uc) (l : List α) {init : Formula uc} (h₀ : init.isChain op item = true)
    (h : ∀ x ∈ l, item (g x) = true) :
    (l.foldl (fun acc x => .bin op acc (g x)) init).isChain op item = true := by
  induction l generalizing init with
  | nil => exact h₀
  | cons x l ih =>
    refine ih ?_ fun y hy => h y (List.mem_cons_of_mem x hy)
    simp [Formula.isChain, h₀, h x (List.mem_cons_self x l)]

theorem variables_foldl_bin_subset {α : Type} (op : BinOp) (g : α → Formula uc) (l : List α)
    {init : Formula uc} {S : Finset (VarName uc)} (h₀ : init.variables ⊆ S)
    (h : ∀ x ∈ l, (g x).variables ⊆ S) :
    (l.foldl (fun acc x => .bin op acc (g x)) init).variables ⊆ S := by
  induction l generalizing init with
  | nil => exact h₀
  | cons x l ih =>
    exact ih (Finset.union_subset h₀ (h x (List.mem_cons_self x l)))
      fun y hy => h y (List.mem_cons_of_mem x hy)

/-- A left-nested chain evaluates to the left fold of its operator. -/
theorem eval_foldl_bin {α : Type} (op : BinOp) (g : α → Formula uc) (ν : VarName uc → Bool)
    (l : List α) (init : Formula uc) :
    (l.foldl (fun acc x => .bin op acc (g x)) init).eval ν =
      l.foldl (fun b x => op.apply b ((g x).eval ν)) (init.eval ν) := by
  induction l generalizing init with
  | nil => rfl
  | cons x l ih => exact ih _

/-- `s` decides `op` as soon as either operand is `s`: `false` for `&`, `true` for `|`. -/
def BinOp.Absorbs (op : BinOp) (s : Bool) : Prop :=
  ∀ a b, op.apply a b = s ↔ a = s ∨ b = s

theorem BinOp.absorbs_and : BinOp.and.Absorbs false := by
  intro a b; cases a <;> cases b <;> decide

theorem BinOp.absorbs_or : BinOp.or.Absorbs true := by
  intro a b; cases a <;> cases b <;> decide

/-- An operator absorbing at `s` is `s` on a value and its negation: `p & ~p` is false,
`p | ~p` true. -/
theorem BinOp.Absorbs.apply_not_self {op : BinOp} {s : Bool} (h : op.Absorbs s) (a : Bool) :
    op.apply a (!a) = s :=
  (h a (!a)).2 (by cases a <;> cases s <;> simp)

/-- A left fold of an operator absorbing at `s` is `s` exactly when one of its operands is. -/
theorem foldl_apply_eq_iff {α : Type} {op : BinOp} {s : Bool} (hop : op.Absorbs s)
    (p : α → Bool) (l : List α) (b : Bool) :
    l.foldl (fun acc x => op.apply acc (p x)) b = s ↔ b = s ∨ ∃ x ∈ l, p x = s := by
  induction l generalizing b with
  | nil => simp
  | cons x l ih =>
    rw [List.foldl_cons, ih, hop]
    simp [or_assoc]

/-! ## Clauses: `_synthesize_for_model` and `_synthesize_for_all_except_model` -/

/-- The keys of a model in sorted order, `sorted(model.keys())`. -/
def Model.sortedKeys (model : Model uc) : List (VarName uc) :=
  model.keys.mergeSort fun a b => decide (a ≤ b)

@[simp] theorem Model.mem_sortedKeys {model : Model uc} {v : VarName uc} :
    v ∈ model.sortedKeys ↔ v ∈ model := by
  simp [Model.sortedKeys, AList.mem_keys]

/-- The clause both helpers build: `literal model[v] v` for each key `v` of the model in sorted
order, joined left to right by `op`; `none` where the source asserts that the model is
nonempty. -/
def clauseOf (op : BinOp) (literal : Bool → VarName uc → Formula uc) (model : Model uc) :
    Option (Formula uc) :=
  match model.sortedKeys with
  | [] => none
  | v :: vs => some (vs.foldl (fun acc w => .bin op acc (literal (model.get w) w))
      (literal (model.get v) v))

/-- `_synthesize_for_model`: the conjunction of `v` for the keys true in the model and `~v` for
the others. -/
def synthesizeForModel (model : Model uc) : Option (Formula uc) :=
  clauseOf .and (fun value v => if value then .var v else .neg (.var v)) model

/-- `_synthesize_for_all_except_model`: the disjunction of `~v` for the keys true in the model
and `v` for the others. -/
def synthesizeForAllExceptModel (model : Model uc) : Option (Formula uc) :=
  clauseOf .or (fun value v => if value then .neg (.var v) else .var v) model

/-- Inversion of `clauseOf`: a clause is the chain over the sorted keys. -/
theorem clauseOf_eq_some_iff {op : BinOp} {literal : Bool → VarName uc → Formula uc}
    {model : Model uc} {c : Formula uc} :
    clauseOf op literal model = some c ↔ ∃ v vs, model.sortedKeys = v :: vs ∧
      c = vs.foldl (fun acc w => .bin op acc (literal (model.get w) w))
        (literal (model.get v) v) := by
  unfold clauseOf
  split
  · rename_i h
    simp [h]
  · rename_i v vs h
    constructor
    · exact fun hc => ⟨v, vs, h, (Option.some.inj hc).symm⟩
    · rintro ⟨v', vs', h', rfl⟩
      rw [h] at h'
      cases h'
      rfl

/-- The variables of a clause of one-variable literals are keys of its model. -/
theorem variables_subset_of_clauseOf {op : BinOp} {literal : Bool → VarName uc → Formula uc}
    (hlit : ∀ b v, (literal b v).variables = {v}) {model : Model uc} {c : Formula uc}
    (h : clauseOf op literal model = some c) : c.variables ⊆ Model.variables model := by
  obtain ⟨v, vs, hk, rfl⟩ := clauseOf_eq_some_iff.1 h
  have hmem : ∀ u ∈ v :: vs, (literal (model.get u) u).variables ⊆ Model.variables model :=
    fun u hu => by
      rw [hlit, Finset.singleton_subset_iff, Model.mem_variables, ← Model.mem_sortedKeys, hk]
      exact hu
  exact variables_foldl_bin_subset _ _ _ (hmem v (List.mem_cons_self v vs))
    fun w hw => hmem w (List.mem_cons_of_mem v hw)

/-- A clause of literals: defined on every model with a key, an `op`-chain of literals over
the model's keys. -/
theorem clauseOf_spec (op : BinOp) (literal : Bool → VarName uc → Formula uc)
    (hlit : ∀ b v, (literal b v).isLiteral = true ∧ (literal b v).variables = {v})
    {model : Model uc} {w : VarName uc} (hw : w ∈ model) :
    ∃ c, clauseOf op literal model = some c ∧ c.isChain op Formula.isLiteral = true ∧
      c.variables ⊆ Model.variables model := by
  obtain ⟨v, vs, hk⟩ := List.exists_cons_of_ne_nil (List.ne_nil_of_mem (Model.mem_sortedKeys.2 hw))
  have hc : clauseOf op literal model = some _ := clauseOf_eq_some_iff.2 ⟨v, vs, hk, rfl⟩
  refine ⟨_, hc, ?_, variables_subset_of_clauseOf (fun b v => (hlit b v).2) hc⟩
  exact isChain_foldl_bin _ _ _ _ (Formula.isChain_of_item (hlit _ v).1) fun w _ => (hlit _ w).1

/-- A clause of literals, each `s` exactly off its own model value, is `!s` exactly on the
assignments that agree with the model on its keys: the clause of `_synthesize_for_model` is true
only there, the clause of `_synthesize_for_all_except_model` false only there. -/
theorem eval_clauseOf {op : BinOp} {s : Bool} (hop : op.Absorbs s)
    {literal : Bool → VarName uc → Formula uc} {ν : VarName uc → Bool}
    (hlit : ∀ b v, (literal b v).eval ν = s ↔ ν v ≠ b) {model : Model uc} {c : Formula uc}
    (h : clauseOf op literal model = some c) :
    c.eval ν = !s ↔ ∀ w ∈ model, ν w = model.get w := by
  obtain ⟨v, vs, hk, rfl⟩ := clauseOf_eq_some_iff.1 h
  have hmem : ∀ w, w ∈ model ↔ w ∈ v :: vs := fun w => by rw [← Model.mem_sortedKeys, hk]
  rw [Bool.eq_not_iff, ne_eq, eval_foldl_bin, foldl_apply_eq_iff hop]
  simp only [hlit, hmem, List.forall_mem_cons, not_or, not_exists, not_and, not_not]

theorem sorted_sortedKeys (model : Model uc) : model.sortedKeys.Sorted (· < ·) :=
  (List.sorted_mergeSort' _).lt_of_le ((List.mergeSort_perm _ _).nodup_iff.2 model.keys_nodup)

/-- The shape of a clause: one literal for each key of the model, in sorted order, joined left
to right by `op`. -/
theorem clauseOf_shape {op : BinOp} {literal : Bool → VarName uc → Formula uc}
    {model : Model uc} {c : Formula uc} (h : clauseOf op literal model = some c) :
    ∃ v vs, (v :: vs).Sorted (· < ·) ∧ (∀ u, u ∈ v :: vs ↔ u ∈ model) ∧
      c = vs.foldl (fun acc u => .bin op acc (literal (model.get u) u))
        (literal (model.get v) v) := by
  obtain ⟨v, vs, hk, rfl⟩ := clauseOf_eq_some_iff.1 h
  exact ⟨v, vs, hk ▸ sorted_sortedKeys model, fun u => by rw [← hk, Model.mem_sortedKeys], rfl⟩

/-- In every model that defines the keys of the clause's model, `evaluate` gives the clause a
value, and the value is `!s` exactly where the two models agree on those keys. -/
theorem evaluate_clauseOf {op : BinOp} {s : Bool} (hop : op.Absorbs s)
    {literal : Bool → VarName uc → Formula uc}
    (hlit : ∀ b v, (literal b v).isLiteral = true ∧ (literal b v).variables = {v} ∧
      ∀ ν : VarName uc → Bool, ((literal b v).eval ν = s ↔ ν v ≠ b))
    {model : Model uc} {c : Formula uc} (h : clauseOf op literal model = some c)
    {M : Model uc} (hM : Model.variables model ⊆ Model.variables M) :
    ∃ b, evaluate c M = some b ∧ (b = !s ↔ ∀ v ∈ model, M.lookup v = model.lookup v) := by
  refine ⟨_, evaluate_of_subset
    ((variables_subset_of_clauseOf (fun b v => (hlit b v).2.1) h).trans hM), ?_⟩
  rw [eval_clauseOf hop (fun b v => (hlit b v).2.2 M.get) h]
  refine forall₂_congr fun w hw => ?_
  rw [Model.lookup_eq_some_get hw,
    Model.lookup_eq_some_get (Model.mem_variables.1 (hM (Model.mem_variables.2 hw))),
    Option.some_inj]

/-- The literals of `_synthesize_for_model`: `v` where the model gives `True`, `~v` where it
gives `False`; each is false exactly off the model value. -/
theorem mintermLiteral_spec (b : Bool) (v : VarName uc) :
    let literal : Formula uc := if b then .var v else .neg (.var v)
    literal.isLiteral = true ∧ literal.variables = {v} ∧
      ∀ ν : VarName uc → Bool, (literal.eval ν = false ↔ ν v ≠ b) := by
  cases b <;> simp [Formula.isLiteral]

/-- The literals of `_synthesize_for_all_except_model`: `~v` where the model gives `True`, `v`
where it gives `False`; each is true exactly off the model value. -/
theorem maxtermLiteral_spec (b : Bool) (v : VarName uc) :
    let literal : Formula uc := if b then .neg (.var v) else .var v
    literal.isLiteral = true ∧ literal.variables = {v} ∧
      ∀ ν : VarName uc → Bool, (literal.eval ν = true ↔ ν v ≠ b) := by
  cases b <;> simp [Formula.isLiteral]

/-- **The minterm of a model.** For a model with at least one key, `_synthesize_for_model`
returns a left-nested `&`-chain of one literal per key in sorted order, `v` where the model
gives `True` and `~v` where it gives `False`; in every model defining those keys it evaluates to
`True` exactly where that model agrees with it on them. -/
theorem synthesizeForModel_spec (m : Model uc) (hne : m.keys ≠ []) :
    ∃ c, synthesizeForModel m = some c ∧
      (∃ v vs, (v :: vs).Sorted (· < ·) ∧ (∀ u, u ∈ v :: vs ↔ u ∈ m) ∧
        c = vs.foldl (fun acc u => .bin .and acc (if m.get u then .var u else .neg (.var u)))
          (if m.get v then .var v else .neg (.var v))) ∧
      ∀ M : Model uc, Model.variables m ⊆ Model.variables M →
        ∃ b, evaluate c M = some b ∧ (b = true ↔ ∀ v ∈ m, M.lookup v = m.lookup v) := by
  obtain ⟨w, hw⟩ := List.exists_mem_of_ne_nil _ hne
  obtain ⟨c, hc, -⟩ := clauseOf_spec .and _ (fun b v => ⟨(mintermLiteral_spec b v).1,
    (mintermLiteral_spec b v).2.1⟩) (AList.mem_keys.1 hw)
  exact ⟨c, hc, clauseOf_shape hc, fun M hM =>
    evaluate_clauseOf BinOp.absorbs_and mintermLiteral_spec hc hM⟩

/-- The minterm of `{p: True, q: False}`. -/
theorem synthesizeForModel_spec_p_not_q :
    let m : Model .ascii := ((∅ : Model .ascii).insert .p true).insert .q false
    m.keys ≠ [] ∧ ∃ c, synthesizeForModel m = some c ∧
      (∃ v vs, (v :: vs).Sorted (· < ·) ∧ (∀ u, u ∈ v :: vs ↔ u ∈ m) ∧
        c = vs.foldl (fun acc u => .bin .and acc (if m.get u then .var u else .neg (.var u)))
          (if m.get v then .var v else .neg (.var v))) ∧
      ∀ M : Model .ascii, Model.variables m ⊆ Model.variables M →
        ∃ b, evaluate c M = some b ∧ (b = true ↔ ∀ v ∈ m, M.lookup v = m.lookup v) :=
  ⟨by decide, synthesizeForModel_spec _ (by decide)⟩

/-- **The maxterm of a model.** For a model with at least one key,
`_synthesize_for_all_except_model` returns a left-nested `|`-chain of one literal per key in
sorted order, `~v` where the model gives `True` and `v` where it gives `False`; in every model
defining those keys it evaluates to `False` exactly where that model agrees with it on them. -/
theorem synthesizeForAllExceptModel_spec (m : Model uc) (hne : m.keys ≠ []) :
    ∃ c, synthesizeForAllExceptModel m = some c ∧
      (∃ v vs, (v :: vs).Sorted (· < ·) ∧ (∀ u, u ∈ v :: vs ↔ u ∈ m) ∧
        c = vs.foldl (fun acc u => .bin .or acc (if m.get u then .neg (.var u) else .var u))
          (if m.get v then .neg (.var v) else .var v)) ∧
      ∀ M : Model uc, Model.variables m ⊆ Model.variables M →
        ∃ b, evaluate c M = some b ∧ (b = false ↔ ∀ v ∈ m, M.lookup v = m.lookup v) := by
  obtain ⟨w, hw⟩ := List.exists_mem_of_ne_nil _ hne
  obtain ⟨c, hc, -⟩ := clauseOf_spec .or _ (fun b v => ⟨(maxtermLiteral_spec b v).1,
    (maxtermLiteral_spec b v).2.1⟩) (AList.mem_keys.1 hw)
  exact ⟨c, hc, clauseOf_shape hc, fun M hM =>
    evaluate_clauseOf BinOp.absorbs_or maxtermLiteral_spec hc hM⟩

/-- The maxterm of `{p: True, q: False}`. -/
theorem synthesizeForAllExceptModel_spec_p_not_q :
    let m : Model .ascii := ((∅ : Model .ascii).insert .p true).insert .q false
    m.keys ≠ [] ∧ ∃ c, synthesizeForAllExceptModel m = some c ∧
      (∃ v vs, (v :: vs).Sorted (· < ·) ∧ (∀ u, u ∈ v :: vs ↔ u ∈ m) ∧
        c = vs.foldl (fun acc u => .bin .or acc (if m.get u then .neg (.var u) else .var u))
          (if m.get v then .neg (.var v) else .var v)) ∧
      ∀ M : Model .ascii, Model.variables m ⊆ Model.variables M →
        ∃ b, evaluate c M = some b ∧ (b = false ↔ ∀ v ∈ m, M.lookup v = m.lookup v) :=
  ⟨by decide, synthesizeForAllExceptModel_spec _ (by decide)⟩

/-! ## `synthesize` and `synthesize_cnf` -/

/-- The models `synthesize` builds a clause for,
`[models[i] for i, val in enumerate(values_list) if val == selected]`. -/
def selectedModels (names : List (VarName uc)) (values : List Bool) (selected : Bool) :
    List (Model uc) :=
  ((allModels names).zip values).filterMap fun mv => if mv.2 = selected then some mv.1 else none

/-- The normal form of a truth table: the `outer`-chain of the clauses of the models whose value
is `selected`, or the contradiction or tautology `(p inner ~p)` over the first name when there
is none. `none` where the source's assertions fail: no names, or not one value per model. -/
def synthesizeNormalForm (outer inner : BinOp) (selected : Bool)
    (clause : Model uc → Option (Formula uc)) (names : List (VarName uc)) (values : List Bool) :
    Option (Formula uc) :=
  match names with
  | [] => none
  | p :: rest =>
    if values.length = (allModels (p :: rest)).length then
      match selectedModels (p :: rest) values selected with
      | [] => some (.bin inner (.var p) (.neg (.var p)))
      | m :: ms => (clause m).bind fun first =>
          ms.foldlM (fun acc m => (clause m).map (.bin outer acc)) first
    else none

/-- `synthesize`: the disjunction of the minterms of the models where the value is `True`. -/
def synthesize (names : List (VarName uc)) (values : List Bool) : Option (Formula uc) :=
  synthesizeNormalForm .or .and true synthesizeForModel names values

/-- `synthesize_cnf`: the conjunction of the maxterms of the models where the value is
`False`. -/
def synthesizeCnf (names : List (VarName uc)) (values : List Bool) : Option (Formula uc) :=
  synthesizeNormalForm .and .or false synthesizeForAllExceptModel names values

theorem mem_selectedModels {names : List (VarName uc)} {values : List Bool} {selected : Bool}
    {m : Model uc} :
    m ∈ selectedModels names values selected ↔
      ∃ j : Nat, (allModels names)[j]? = some m ∧ values[j]? = some selected := by
  rw [selectedModels, List.mem_filterMap]
  simp only [List.mem_iff_getElem?, List.getElem?_zip_eq_some]
  constructor
  · rintro ⟨⟨m', b⟩, ⟨j, hm, hb⟩, h⟩
    split_ifs at h with hs
    cases h
    exact ⟨j, hm, hs ▸ hb⟩
  · rintro ⟨j, hm, hb⟩
    exact ⟨(m, selected), ⟨j, hm, hb⟩, if_pos rfl⟩

/-- Each selected model is the model of a mask whose value is the selected one. -/
theorem eq_modelOfMask_of_mem_selectedModels {names : List (VarName uc)} {values : List Bool}
    {selected : Bool} {m : Model uc} (h : m ∈ selectedModels names values selected) :
    ∃ j < 2 ^ names.length, m = modelOfMask names j ∧ values[j]? = some selected := by
  obtain ⟨j, hm, hv⟩ := mem_selectedModels.1 h
  rw [getElem?_allModels] at hm
  split_ifs at hm with hj
  exact ⟨j, hj, (Option.some.inj hm).symm, hv⟩

/-- The `k`-th model agrees with the `j`-th on its keys only when `j = k`. -/
theorem agree_modelOfMask_iff {names : List (VarName uc)} (hnd : names.Nodup) {j k : Nat}
    (hj : j < 2 ^ names.length) (hk : k < 2 ^ names.length) :
    (∀ w ∈ modelOfMask names j, (modelOfMask names k).get w = (modelOfMask names j).get w) ↔
      j = k := by
  refine ⟨fun h => eq_of_modelOfMask_agree hnd hj hk fun v hv => ?_, fun h _ _ => h ▸ rfl⟩
  have hvj := (mem_modelOfMask hnd j v).2 hv
  rw [Model.lookup_eq_some_get hvj, Model.lookup_eq_some_get ((mem_modelOfMask hnd k v).2 hv),
    h v hvj]

theorem foldlM_map_bin_eq_some {α : Type} (op : BinOp) (clause : α → Option (Formula uc))
    (g : α → Formula uc) (l : List α) (init : Formula uc) (h : ∀ x ∈ l, clause x = some (g x)) :
    l.foldlM (fun acc x => (clause x).map (.bin op acc)) init =
      some (l.foldl (fun acc x => .bin op acc (g x)) init) := by
  induction l generalizing init with
  | nil => rfl
  | cons x l ih =>
    rw [List.foldlM_cons, h x (List.mem_cons_self x l)]
    exact ih _ fun y hy => h y (List.mem_cons_of_mem x hy)

section NormalForm

/-! The normal-form construction is correct for any outer operator absorbing at the selected
value, inner operator absorbing at the other one, and literals that take the other value
exactly off their model value. -/

variable {outer inner : BinOp} {selected : Bool} {literal : Bool → VarName uc → Formula uc}
  (houter : outer.Absorbs selected) (hinner : inner.Absorbs (!selected))
  (hlit : ∀ b v, (literal b v).isLiteral = true ∧ (literal b v).variables = {v} ∧
    ∀ ν : VarName uc → Bool, ((literal b v).eval ν = !selected ↔ ν v ≠ b))

include hinner hlit in
/-- Every model over the names has a clause: an `inner`-chain of literals over the names that
is `selected` exactly where the assignment agrees with the model. -/
theorem clauseOf_spec_of_keys {names : List (VarName uc)} (hne : names ≠ []) {m : Model uc}
    (hm : ∀ v, v ∈ m ↔ v ∈ names) :
    ∃ c, clauseOf inner literal m = some c ∧ c.isChain inner Formula.isLiteral = true ∧
      c.variables ⊆ names.toFinset ∧
      ∀ ν : VarName uc → Bool, (c.eval ν = selected ↔ ∀ w ∈ m, ν w = m.get w) := by
  obtain ⟨v, hv⟩ := List.exists_mem_of_ne_nil _ hne
  obtain ⟨c, hc, hchain, hvars⟩ := clauseOf_spec inner literal (fun b v => ⟨(hlit b v).1,
    (hlit b v).2.1⟩) ((hm v).2 hv)
  refine ⟨c, hc, hchain, fun w hw => List.mem_toFinset.2 ((hm w).1 ?_), fun ν => ?_⟩
  · exact Model.mem_variables.1 (hvars hw)
  · rw [← eval_clauseOf hinner (fun b v => (hlit b v).2.2 ν) hc, Bool.not_not]

include houter hinner hlit in
/-- The `outer`-chain of the clauses of a nonempty list of models over the names. -/
theorem chain_of_clauses_spec {names : List (VarName uc)} (hne : names ≠ []) (m : Model uc)
    (ms : List (Model uc)) (hm : ∀ x ∈ m :: ms, ∀ v, v ∈ x ↔ v ∈ names) :
    ∃ φ, ((clauseOf inner literal m).bind fun first =>
        ms.foldlM (fun acc x => (clauseOf inner literal x).map (.bin outer acc)) first) = some φ ∧
      φ.variables ⊆ names.toFinset ∧
      φ.isChain outer (Formula.isChain inner Formula.isLiteral) = true ∧
      ∀ ν : VarName uc → Bool, (φ.eval ν = selected ↔ ∃ x ∈ m :: ms, ∀ w ∈ x, ν w = x.get w) := by
  let g x := (clauseOf inner literal x).getD (.const true)
  have hg : ∀ x ∈ m :: ms, clauseOf inner literal x = some (g x) ∧
      (g x).isChain inner Formula.isLiteral = true ∧ (g x).variables ⊆ names.toFinset ∧
      ∀ ν : VarName uc → Bool, ((g x).eval ν = selected ↔ ∀ w ∈ x, ν w = x.get w) := by
    intro x hx
    obtain ⟨c, hc, hspec⟩ := clauseOf_spec_of_keys hinner hlit hne (hm x hx)
    have hgx : g x = c := by simp only [g, hc, Option.getD_some]
    exact hgx ▸ ⟨hc, hspec⟩
  have hms : ∀ x ∈ ms, x ∈ m :: ms := fun x => List.mem_cons_of_mem m
  refine ⟨ms.foldl (fun acc x => .bin outer acc (g x)) (g m), ?_, ?_, ?_, fun ν => ?_⟩
  · rw [(hg m (List.mem_cons_self m ms)).1, Option.some_bind]
    exact foldlM_map_bin_eq_some _ _ _ _ _ fun x hx => (hg x (hms x hx)).1
  · exact variables_foldl_bin_subset _ _ _ (hg m (List.mem_cons_self m ms)).2.2.1
      fun x hx => (hg x (hms x hx)).2.2.1
  · exact isChain_foldl_bin _ _ _ _ (Formula.isChain_of_item (hg m (List.mem_cons_self m ms)).2.1)
      fun x hx => (hg x (hms x hx)).2.1
  · have hx := fun x hx => (hg x hx).2.2.2 ν
    rw [eval_foldl_bin, foldl_apply_eq_iff houter, List.exists_mem_cons_iff,
      hx m (List.mem_cons_self m ms)]
    exact or_congr_right (exists_congr fun x => and_congr_right fun h => hx x (hms x h))

include houter hinner hlit in
/-- The construction succeeds on distinct names and one value per model, and its result is
`selected` exactly where the assignment agrees with one of the selected models. -/
theorem synthesizeNormalForm_eq_some (p : VarName uc) (rest : List (VarName uc))
    (values : List Bool) (hnd : (p :: rest).Nodup) (hlen : values.length = 2 ^ (p :: rest).length) :
    ∃ φ, synthesizeNormalForm outer inner selected (clauseOf inner literal) (p :: rest) values =
        some φ ∧
      φ.variables ⊆ (p :: rest).toFinset ∧
      φ.isChain outer (Formula.isChain inner Formula.isLiteral) = true ∧
      (selected ∉ values → φ = .bin inner (.var p) (.neg (.var p))) ∧
      ∀ ν : VarName uc → Bool, (φ.eval ν = selected ↔
        ∃ x ∈ selectedModels (p :: rest) values selected, ∀ w ∈ x, ν w = x.get w) := by
  simp only [synthesizeNormalForm]
  rw [if_pos (by rw [length_allModels, hlen])]
  rcases hs : selectedModels (p :: rest) values selected with _ | ⟨m, ms⟩
  · refine ⟨_, rfl, by simp, by simp [Formula.isChain, Formula.isLiteral], fun _ => rfl,
      fun ν => ?_⟩
    rw [Formula.eval_bin, Formula.eval_neg, Formula.eval_var, hinner.apply_not_self]
    simp only [List.not_mem_nil, false_and, exists_false, iff_false]
    cases selected <;> decide
  · have hmem : ∀ x ∈ m :: ms, x ∈ selectedModels (p :: rest) values selected := fun x hx =>
      hs ▸ hx
    obtain ⟨φ, hφ, hvars, hchain, heval⟩ := chain_of_clauses_spec houter hinner hlit
      (List.cons_ne_nil p rest) m ms fun x hx v => by
        obtain ⟨j, -, rfl, -⟩ := eq_modelOfMask_of_mem_selectedModels (hmem x hx)
        exact mem_modelOfMask hnd j v
    refine ⟨φ, hφ, hvars, hchain, fun hv => absurd ?_ hv, heval⟩
    obtain ⟨j, -, -, hj⟩ := eq_modelOfMask_of_mem_selectedModels
      (hmem m (List.mem_cons_self m ms))
    exact List.getElem?_mem hj

include houter hinner hlit in
/-- **The normal form has the truth table.** On distinct names and one value per model of
`all_models`, the result is an `outer`-chain of `inner`-chains of literals over the
names (the single clause `(p inner ~p)` when no value is `selected`), and `evaluate` gives it
exactly the values in the models of `all_models`. -/
theorem synthesizeNormalForm_spec (p : VarName uc) (rest : List (VarName uc))
    (values : List Bool) (hnd : (p :: rest).Nodup) (hlen : values.length = 2 ^ (p :: rest).length) :
    ∃ φ, synthesizeNormalForm outer inner selected (clauseOf inner literal) (p :: rest) values =
        some φ ∧
      φ.variables ⊆ (p :: rest).toFinset ∧
      φ.isChain outer (Formula.isChain inner Formula.isLiteral) = true ∧
      (selected ∉ values → φ = .bin inner (.var p) (.neg (.var p))) ∧
      (allModels (p :: rest)).map (evaluate φ) = values.map some := by
  obtain ⟨φ, hφ, hvars, hchain, hfallback, heval⟩ :=
    synthesizeNormalForm_eq_some houter hinner hlit p rest values hnd hlen
  refine ⟨φ, hφ, hvars, hchain, hfallback, List.ext_getElem (by simp [hlen]) fun k hk _ => ?_⟩
  have hk' : k < 2 ^ (p :: rest).length := by simpa using hk
  have hcov : φ.variables ⊆ Model.variables (modelOfMask (p :: rest) k) := fun v hv => by
    rw [Model.mem_variables, mem_modelOfMask hnd]
    exact List.mem_toFinset.1 (hvars hv)
  have hsel : φ.eval (modelOfMask (p :: rest) k).get = selected ↔ values[k] = selected := by
    rw [heval, ← Option.some_inj, ← List.getElem?_eq_getElem]
    constructor
    · rintro ⟨x, hx, hagree⟩
      obtain ⟨j, hj, rfl, hv⟩ := eq_modelOfMask_of_mem_selectedModels hx
      rwa [← (agree_modelOfMask_iff hnd hj hk').1 hagree]
    · intro hv
      exact ⟨_, mem_selectedModels.2 ⟨k, by rw [getElem?_allModels, if_pos hk'], hv⟩,
        fun _ _ => rfl⟩
  simp only [List.getElem_map, getElem_allModels, evaluate_of_subset hcov, Option.some_inj]
  cases selected <;> simpa using hsel

end NormalForm

/-- **`synthesize` builds a DNF with the truth table.** For distinct names `p :: rest` and
one value per model of `all_models`, `synthesize` returns a disjunction of conjunctions of
literals over the names (`(p & ~p)` when no value is `True`) that `evaluate` gives exactly
the values in the models of `all_models`, in order. -/
theorem synthesize_truth_table (p : VarName uc) (rest : List (VarName uc)) (values : List Bool)
    (hnd : (p :: rest).Nodup) (hlen : values.length = 2 ^ (p :: rest).length) :
    ∃ φ, synthesize (p :: rest) values = some φ ∧ φ.variables ⊆ (p :: rest).toFinset ∧
      φ.isChain .or (Formula.isChain .and Formula.isLiteral) = true ∧
      (true ∉ values → φ = .bin .and (.var p) (.neg (.var p))) ∧
      (allModels (p :: rest)).map (evaluate φ) = values.map some :=
  synthesizeNormalForm_spec BinOp.absorbs_or BinOp.absorbs_and mintermLiteral_spec p rest values
    hnd hlen

/-- The DNF of the docstring's truth table `[True, True, True, False]` over `p`, `q`. -/
theorem synthesize_truth_table_p_q :
    let rest : List (VarName .ascii) := [.q]
    let values := [true, true, true, false]
    (VarName.p :: rest).Nodup ∧ values.length = 2 ^ (VarName.p :: rest).length ∧
      ∃ φ, synthesize (VarName.p :: rest) values = some φ ∧
        φ.variables ⊆ (VarName.p :: rest).toFinset ∧
        φ.isChain .or (Formula.isChain .and Formula.isLiteral) = true ∧
        (true ∉ values → φ = .bin .and (.var .p) (.neg (.var .p))) ∧
        (allModels (VarName.p :: rest)).map (evaluate φ) = values.map some :=
  ⟨by decide, rfl, synthesize_truth_table _ _ _ (by decide) rfl⟩

/-- **`synthesize_cnf` builds a CNF with the truth table.** For distinct names `p :: rest`
and one value per model of `all_models`, `synthesize_cnf` returns a conjunction of
disjunctions of literals over the names (`(p | ~p)` when no value is `False`) that
`evaluate` gives exactly the values in the models of `all_models`, in order. -/
theorem synthesizeCnf_truth_table (p : VarName uc) (rest : List (VarName uc))
    (values : List Bool) (hnd : (p :: rest).Nodup)
    (hlen : values.length = 2 ^ (p :: rest).length) :
    ∃ φ, synthesizeCnf (p :: rest) values = some φ ∧ φ.variables ⊆ (p :: rest).toFinset ∧
      φ.isChain .and (Formula.isChain .or Formula.isLiteral) = true ∧
      (false ∉ values → φ = .bin .or (.var p) (.neg (.var p))) ∧
      (allModels (p :: rest)).map (evaluate φ) = values.map some :=
  synthesizeNormalForm_spec BinOp.absorbs_and BinOp.absorbs_or maxtermLiteral_spec p rest values
    hnd hlen

/-- The CNF of the docstring's truth table `[True, True, True, False]` over `p`, `q`. -/
theorem synthesizeCnf_truth_table_p_q :
    let rest : List (VarName .ascii) := [.q]
    let values := [true, true, true, false]
    (VarName.p :: rest).Nodup ∧ values.length = 2 ^ (VarName.p :: rest).length ∧
      ∃ φ, synthesizeCnf (VarName.p :: rest) values = some φ ∧
        φ.variables ⊆ (VarName.p :: rest).toFinset ∧
        φ.isChain .and (Formula.isChain .or Formula.isLiteral) = true ∧
        (false ∉ values → φ = .bin .or (.var .p) (.neg (.var .p))) ∧
        (allModels (VarName.p :: rest)).map (evaluate φ) = values.map some :=
  ⟨by decide, rfl, synthesizeCnf_truth_table _ _ _ (by decide) rfl⟩

end Propositions
