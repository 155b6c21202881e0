import Propositions.Synthesis
import Propositions.Classify
import Mathlib.Algebra.Order.Ring.Nat

/-!
# Propositions.TruthTables

`truth_values` and `print_truth_table`, and the round trip between formulas and truth tables:
`synthesize` and `synthesize_cnf` applied to the truth table of a formula over distinct,
nonempty names give back a formula equivalent to it. Over no names the table still exists (the
formula has no variables), but both synthesizers fail their assertion `len(variables) > 0`.

A formula over distinct names is determined by its truth table over `all_models` of the names
(`evaluate_eq_of_map_evaluate_eq`): every model that defines the names agrees on them with one
of the enumerated models, and a formula's value depends only on its own variables. The
truth-table law of the normal forms (`synthesizeNormalForm_spec`) then gives the round trip.

`print_truth_table` pads nothing: its header and rule are as wide as the column names, its rows
are one character per cell (`printTruthTable_eq`).
-/

namespace Propositions

variable {uc : UnicodeClasses}

/-- `truth_values`: the value of the formula in each of the models, in order; `none` where
`evaluate`'s assertion fails in one of them. -/
def truthValues (formula : Formula uc) (models : List (Model uc)) : Option (List Bool) :=
  models.mapM (evaluate formula)

theorem truthValues_cons (f : Formula uc) (m : Model uc) (ms : List (Model uc)) :
    truthValues f (m :: ms) = (evaluate f m).bind fun a => (truthValues f ms).map (a :: ·) := by
  simp only [truthValues, List.mapM_cons]
  rcases evaluate f m with _ | a <;> rcases List.mapM (evaluate f) ms with _ | bs <;> rfl

/-- `truth_values` succeeds with a list of values exactly when `evaluate` gives each model its
value in the list. -/
theorem truthValues_eq_some_iff {f : Formula uc} {models : List (Model uc)}
    {values : List Bool} :
    truthValues f models = some values ↔ models.map (evaluate f) = values.map some := by
  induction models generalizing values with
  | nil =>
    rw [show truthValues f [] = some [] from rfl]
    cases values <;> simp
  | cons m ms ih =>
    rw [truthValues_cons, List.map_cons]
    rcases values with _ | ⟨b, bs⟩ <;> rcases evaluate f m with _ | a <;> simp [← ih]
    exact and_comm

/-- Two formulas over distinct names with the same truth table over `all_models` of the names
have the same value in every model that defines the names. -/
theorem evaluate_eq_of_map_evaluate_eq {names : List (VarName uc)} (hnd : names.Nodup)
    {φ ψ : Formula uc} (hφ : φ.variables ⊆ names.toFinset) (hψ : ψ.variables ⊆ names.toFinset)
    (h : (allModels names).map (evaluate φ) = (allModels names).map (evaluate ψ))
    {M : Model uc} (hM : names.toFinset ⊆ Model.variables M) : evaluate φ M = evaluate ψ M := by
  obtain ⟨m, hm, hagree⟩ := exists_mem_allModels_agree hnd M.get
  have hnames := toFinset_subset_variables_of_mem_allModels hnd hm
  have hcongr : ∀ χ : Formula uc, χ.variables ⊆ names.toFinset → evaluate χ M = evaluate χ m :=
    fun χ hχ => by
      rw [evaluate_of_subset (hχ.trans hM), evaluate_of_subset (hχ.trans hnames)]
      exact congrArg some (χ.eval_congr fun v hv => (hagree v (List.mem_toFinset.1 (hχ hv))).symm)
  rw [hcongr φ hφ, hcongr ψ hψ]
  exact List.map_eq_map_iff.1 h m hm

/-- **Formulas and truth tables round trip.** For distinct names `vs` covering a formula's
variables, `truth_values` of the formula over `all_models` of the names succeeds. When the
names are not empty, `synthesize` and `synthesize_cnf` of that truth table return formulas that
have the formula's value in every model defining the names; when they are empty (so the formula
has no variables), both fail their assertion `len(variables) > 0`. -/
theorem synthesize_truthValues (f : Formula uc) (vs : List (VarName uc)) (hnd : vs.Nodup)
    (hf : f.variables ⊆ vs.toFinset) :
    ∃ values, truthValues f (allModels vs) = some values ∧
      (vs = [] → synthesize vs values = none ∧ synthesizeCnf vs values = none) ∧
      (vs ≠ [] →
        (∃ φ, synthesize vs values = some φ ∧ ∀ M : Model uc,
          vs.toFinset ⊆ Model.variables M → evaluate φ M = evaluate f M) ∧
        (∃ ψ, synthesizeCnf vs values = some ψ ∧ ∀ M : Model uc,
          vs.toFinset ⊆ Model.variables M → evaluate ψ M = evaluate f M)) := by
  have htable : (allModels vs).map (evaluate f) =
      ((allModels vs).map fun m => f.eval m.get).map some := by
    rw [List.map_map]
    exact List.map_congr_left fun m hm =>
      evaluate_of_subset (hf.trans (toFinset_subset_variables_of_mem_allModels hnd hm))
  refine ⟨_, truthValues_eq_some_iff.2 htable, fun hvs => ?_, fun hvs => ?_⟩
  · subst hvs
    exact ⟨rfl, rfl⟩
  obtain ⟨p, rest, rfl⟩ := List.exists_cons_of_ne_nil hvs
  have hlen : ((allModels (p :: rest)).map fun m => f.eval m.get).length =
      2 ^ (p :: rest).length := by
    simp
  constructor
  · obtain ⟨φ, hφ, hvars, -, -, htableφ⟩ := synthesizeNormalForm_spec BinOp.absorbs_or
      BinOp.absorbs_and mintermLiteral_spec p rest _ hnd hlen
    exact ⟨φ, hφ, fun M hM => evaluate_eq_of_map_evaluate_eq hnd hvars hf
      (htableφ.trans htable.symm) hM⟩
  · obtain ⟨ψ, hψ, hvars, -, -, htableψ⟩ := synthesizeNormalForm_spec BinOp.absorbs_and
      BinOp.absorbs_or maxtermLiteral_spec p rest _ hnd hlen
    exact ⟨ψ, hψ, fun M hM => evaluate_eq_of_map_evaluate_eq hnd hvars hf
      (htableψ.trans htable.symm) hM⟩

/-- The round trip for `~(p&q)` over `p`, `q`. -/
theorem synthesize_truthValues_not_and :
    let vs : List (VarName .ascii) := [.p, .q]
    let f : Formula .ascii := .neg (.bin .and (.var .p) (.var .q))
    vs.Nodup ∧ f.variables ⊆ vs.toFinset ∧
      ∃ values, truthValues f (allModels vs) = some values ∧
        (vs = [] → synthesize vs values = none ∧ synthesizeCnf vs values = none) ∧
        (vs ≠ [] →
          (∃ φ, synthesize vs values = some φ ∧ ∀ M : Model .ascii,
            vs.toFinset ⊆ Model.variables M → evaluate φ M = evaluate f M) ∧
          (∃ ψ, synthesizeCnf vs values = some ψ ∧ ∀ M : Model .ascii,
            vs.toFinset ⊆ Model.variables M → evaluate ψ M = evaluate f M)) :=
  ⟨by decide, by decide, synthesize_truthValues _ _ (by decide) (by decide)⟩

/-! ## `print_truth_table` -/

/-- The cell `print_truth_table` prints for a truth value, `'T' if value else 'F'`. -/
def cellOf (value : Bool) : List Char :=
  if value then ['T'] else ['F']

@[simp] theorem length_cellOf (value : Bool) : (cellOf value).length = 1 := by
  cases value <;> rfl

/-- A line of cells as `print_truth_table` prints it, `'| ' + ' | '.join(cells) + ' |'`. -/
def tableLine (cells : List (List Char)) : List Char :=
  "| ".toList ++ " | ".toList.intercalate cells ++ " |".toList

/-- The rule under the header,
`'|' + '|'.join('-' * (len(name) + 2) for name in header_cells) + '|'`. -/
def tableRule (cells : List (List Char)) : List Char :=
  ['|'] ++ ['|'].intercalate (cells.map fun name => List.replicate (name.length + 2) '-') ++ ['|']

/-- `print_truth_table`: the lines it prints (the header, the rule, and a row for each model of
`all_models` over the sorted variable names), `none` where `evaluate` fails in a model. -/
def printTruthTable (formula : Formula uc) : Option (List (List Char)) :=
  let varsSorted := formula.sortedVariables
  let headerCells := varsSorted.map Subtype.val ++ [formula.repr]
  let rows := (allModels varsSorted).mapM fun m =>
    (evaluate formula m).map fun value =>
      tableLine (varsSorted.map (fun v => cellOf (m.get v)) ++ [cellOf value])
  rows.map fun rows => tableLine headerCells :: tableRule headerCells :: rows

theorem mapM_eq_some_of_forall {α β : Type} (l : List α) (g : α → Option β) (h : α → β)
    (hg : ∀ x ∈ l, g x = some (h x)) : l.mapM g = some (l.map h) := by
  induction l with
  | nil => rfl
  | cons x l ih =>
    rw [List.mapM_cons, hg x (List.mem_cons_self x l),
      ih fun y hy => hg y (List.mem_cons_of_mem x hy)]
    rfl

theorem length_intercalate_add (sep : List Char) {cells : List (List Char)} (h : cells ≠ []) :
    (sep.intercalate cells).length + sep.length =
      (cells.map fun c => c.length + sep.length).sum := by
  induction cells with
  | nil => exact absurd rfl h
  | cons c cells ih =>
    rcases cells with _ | ⟨d, cells⟩
    · simp [List.intercalate]
    · have := ih (List.cons_ne_nil d cells)
      simp only [List.intercalate, List.intersperse_cons_cons, List.flatten_cons,
        List.length_append, List.map_cons, List.sum_cons] at this ⊢
      omega

theorem length_tableLine {cells : List (List Char)} (h : cells ≠ []) :
    (tableLine cells).length = (cells.map fun c => c.length + 3).sum + 1 := by
  have := length_intercalate_add " | ".toList h
  have h2 : "| ".toList.length = 2 := rfl
  have h3 : " | ".toList.length = 3 := rfl
  have h2' : " |".toList.length = 2 := rfl
  rw [h3] at this
  rw [tableLine, List.length_append, List.length_append, h2, h2']
  omega

theorem length_tableRule {cells : List (List Char)} (h : cells ≠ []) :
    (tableRule cells).length = (cells.map fun c => c.length + 3).sum + 1 := by
  have := @length_intercalate_add ['|'] (cells.map fun name => List.replicate (name.length + 2) '-')
    (by simpa using h)
  simp only [List.map_map, Function.comp_def, List.length_replicate, List.length_singleton,
    Nat.add_assoc] at this
  rw [show (fun x : List Char => x.length + (2 + 1)) = fun c => c.length + 3 from rfl] at this
  simp only [tableRule, List.length_append, List.length_singleton]
  omega

/-- Cells of at least one character each have one character each exactly when their lengths add
up to their number. -/
theorem sum_length_eq_length_iff {cells : List (List Char)} (h : ∀ c ∈ cells, c ≠ []) :
    (cells.map List.length).sum = cells.length ↔ ∀ c ∈ cells, c.length = 1 := by
  induction cells with
  | nil => simp
  | cons c cells ih =>
    have hc := List.length_pos.2 (h c (List.mem_cons_self c cells))
    have hle := List.length_le_sum_of_one_le (cells.map List.length) fun n hn => by
      obtain ⟨d, hd, rfl⟩ := List.mem_map.1 hn
      exact List.length_pos.2 (h d (List.mem_cons_of_mem c hd))
    rw [List.length_map] at hle
    rw [List.map_cons, List.sum_cons, List.length_cons, List.forall_mem_cons,
      ← ih fun d hd => h d (List.mem_cons_of_mem c hd)]
    omega

theorem Formula.repr_ne_nil (f : Formula uc) : f.repr ≠ [] := by
  cases f with
  | var name => exact name.val_ne_nil
  | const value => cases value <;> simp [Formula.repr, Formula.root]
  | neg first => simp [Formula.repr]
  | bin op first second => simp [Formula.repr]

/-- **What `print_truth_table` prints.** The header `| v₁ | … | vₙ | str(f) |` over the sorted
variable names, a rule exactly as wide, and, for each model of `all_models` in order, the row of
its values and the formula's value, one character `T` or `F` per cell. Rows are not padded: a
row is `4 * (n + 1) + 1` characters wide, as wide as the header exactly when every variable name
and `str(f)` are one character long. -/
theorem printTruthTable_eq (f : Formula uc) :
    let cells := f.sortedVariables.map Subtype.val ++ [f.repr]
    let rows := (allModels f.sortedVariables).map fun m =>
      tableLine (f.sortedVariables.map (fun v => cellOf (m.get v)) ++ [cellOf (f.eval m.get)])
    printTruthTable f = some (tableLine cells :: tableRule cells :: rows) ∧
      (tableRule cells).length = (tableLine cells).length ∧
      ∀ row ∈ rows, row.length = 4 * cells.length + 1 ∧
        (row.length = (tableLine cells).length ↔ ∀ c ∈ cells, c.length = 1) := by
  intro cells rows
  have hcells : cells ≠ [] := by simp [cells]
  have hnonempty : ∀ c ∈ cells, c ≠ [] := by
    simp only [cells, List.mem_append, List.mem_map, List.mem_singleton]
    rintro c (⟨v, -, rfl⟩ | rfl)
    exacts [VarName.val_ne_nil v, f.repr_ne_nil]
  have hsum : (cells.map fun c => c.length + 3).sum =
      (cells.map List.length).sum + 3 * cells.length := by
    rw [List.sum_map_add]
    simp [mul_comm]
  refine ⟨?_, by rw [length_tableLine hcells, length_tableRule hcells], fun row hrow => ?_⟩
  · rw [printTruthTable, mapM_eq_some_of_forall _ _ _ fun m hm => by
      rw [evaluate_of_mem_allModels hm]; rfl]
    rfl
  · obtain ⟨m, -, rfl⟩ := List.mem_map.1 hrow
    have hlen : (tableLine (f.sortedVariables.map (fun v => cellOf (m.get v)) ++
        [cellOf (f.eval m.get)])).length = 4 * cells.length + 1 := by
      rw [length_tableLine (by simp)]
      simp [cells, List.map_const', List.sum_replicate]
      omega
    refine ⟨hlen, ?_⟩
    rw [hlen, length_tableLine hcells, hsum, ← sum_length_eq_length_iff hnonempty]
    omega

end Propositions
