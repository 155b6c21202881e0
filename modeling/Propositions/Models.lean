import Propositions.Semantics
import Mathlib.Data.Nat.Bitwise

/-!
# Propositions.Models

`all_models`: the enumeration of every model over a list of variable names, in the order of an
`n`-bit binary counter whose most significant bit is the first name.

The `mask`-th model gives the `i`-th name bit `n - 1 - i` of `mask` (`maskBit`). On distinct
names, the lookups of that model are exactly these bits (`lookup_modelOfMask`), and two masks
below `2 ^ n` with the same bits below `n` are equal, so every assignment of truth values to
the names is the model of exactly one mask: the one `maskOf` reads off the assignment.
-/

namespace Propositions

variable {uc : UnicodeClasses}

/-! ## Masks -/

/-- The value `all_models` gives the name at position `i` of `n` names under `mask`:
`bool((mask >> (n - 1 - i)) & 1)`. -/
def maskBit (mask n i : Nat) : Bool :=
  (mask >>> (n - 1 - i)) &&& 1 != 0

theorem maskBit_eq_testBit (mask n i : Nat) : maskBit mask n i = mask.testBit (n - 1 - i) := by
  rw [maskBit, Nat.testBit, Nat.land_comm]

/-- The mask of a list of bits read as a binary number, the first bit most significant. -/
def maskOf : List Bool → Nat
  | [] => 0
  | b :: bs => 2 ^ bs.length * b.toNat + maskOf bs

theorem maskOf_lt (bs : List Bool) : maskOf bs < 2 ^ bs.length := by
  induction bs with
  | nil => decide
  | cons b bs ih =>
    have := Nat.mul_le_mul_left (2 ^ bs.length) (Bool.toNat_le b)
    rw [maskOf, List.length_cons, Nat.pow_succ]
    omega

theorem testBit_maskOf (bs : List Bool) (i : Nat) (hi : i < bs.length) :
    (maskOf bs).testBit (bs.length - 1 - i) = bs[i] := by
  induction bs generalizing i with
  | nil => cases hi
  | cons b bs ih =>
    rw [maskOf, Nat.testBit_mul_pow_two_add _ (maskOf_lt bs)]
    rcases i with _ | i
    · cases b <;> simp
    · simp only [List.length_cons, List.getElem_cons_succ] at hi ⊢
      rw [if_pos (by omega), show bs.length + 1 - 1 - (i + 1) = bs.length - 1 - i by omega,
        ih i (by omega)]

/-- Two masks below `2 ^ n` that agree on their `n` low bits are equal. -/
theorem eq_of_testBit_eq_of_lt {j k n : Nat} (hj : j < 2 ^ n) (hk : k < 2 ^ n)
    (h : ∀ p < n, j.testBit p = k.testBit p) : j = k := by
  refine Nat.eq_of_testBit_eq fun p => ?_
  by_cases hp : p < n
  · exact h p hp
  · have hpow : 2 ^ n ≤ 2 ^ p := Nat.pow_le_pow_right (by decide) (by omega)
    rw [Nat.testBit_lt_two_pow (by omega), Nat.testBit_lt_two_pow (by omega)]

/-! ## `all_models` -/

/-- The model `all_models` yields for `mask`: each `names[i]` set to `maskBit mask n i`. -/
def modelOfMask (names : List (VarName uc)) (mask : Nat) : Model uc :=
  names.enum.foldl (fun m p => m.insert p.2 (maskBit mask names.length p.1)) ∅

/-- `all_models`: the models of the masks `0, 1, …, 2 ^ n - 1`, in that order. -/
def allModels (names : List (VarName uc)) : List (Model uc) :=
  (List.range (2 ^ names.length)).map (modelOfMask names)

@[simp] theorem length_allModels (names : List (VarName uc)) :
    (allModels names).length = 2 ^ names.length := by
  simp [allModels]

theorem getElem?_allModels (names : List (VarName uc)) (k : Nat) :
    (allModels names)[k]? = if k < 2 ^ names.length then some (modelOfMask names k) else none := by
  split_ifs with hk
  · simp [allModels, hk]
  · simp [allModels]
    omega

@[simp] theorem getElem_allModels (names : List (VarName uc)) (k : Nat)
    (hk : k < (allModels names).length) :
    (allModels names)[k] = modelOfMask names k := by
  simp [allModels]

/-- Inserting the entries of an enumerated list of distinct names, one after another. -/
theorem lookup_foldl_insert_enumFrom (b : Nat → Bool) {names : List (VarName uc)}
    (hnd : names.Nodup) (k : Nat) (m₀ : Model uc) (v : VarName uc) :
    ((names.enumFrom k).foldl (fun m p => m.insert p.2 (b p.1)) m₀).lookup v =
      if v ∈ names then some (b (k + names.indexOf v)) else m₀.lookup v := by
  induction names generalizing k m₀ with
  | nil => simp
  | cons a names ih =>
    obtain ⟨ha, hnd⟩ := List.nodup_cons.1 hnd
    rw [List.enumFrom_cons, List.foldl_cons, ih hnd]
    by_cases hva : v = a
    · subst hva
      simp [ha, AList.lookup_insert]
    · by_cases hv : v ∈ names
      · simp only [hv, List.mem_cons, hva, or_true, if_true, false_or,
          List.indexOf_cons_ne _ (Ne.symm hva), Option.some.injEq]
        congr 1
        omega
      · simp [hv, hva, AList.lookup_insert_ne hva]

/-- On distinct names, the `mask`-th model gives each name its bit of `mask`, and nothing
else. -/
theorem lookup_modelOfMask {names : List (VarName uc)} (hnd : names.Nodup) (mask : Nat)
    (v : VarName uc) :
    (modelOfMask names mask).lookup v =
      if v ∈ names then some (mask.testBit (names.length - 1 - names.indexOf v)) else none := by
  rw [modelOfMask, List.enum_eq_enumFrom, lookup_foldl_insert_enumFrom _ hnd]
  simp [maskBit_eq_testBit]

theorem mem_modelOfMask {names : List (VarName uc)} (hnd : names.Nodup) (mask : Nat)
    (v : VarName uc) : v ∈ modelOfMask names mask ↔ v ∈ names := by
  rw [← AList.lookup_isSome, lookup_modelOfMask hnd]
  split_ifs with h <;> simp [h]

theorem lookup_modelOfMask_getElem {names : List (VarName uc)} (hnd : names.Nodup)
    (mask i : Nat) (hi : i < names.length) :
    (modelOfMask names mask).lookup names[i] =
      some (mask.testBit (names.length - 1 - i)) := by
  rw [lookup_modelOfMask hnd, if_pos (List.getElem_mem hi), List.indexOf_getElem hnd]

/-- Two masks below `2 ^ n` whose models agree on the names are the same mask. -/
theorem eq_of_modelOfMask_agree {names : List (VarName uc)} (hnd : names.Nodup) {j k : Nat}
    (hj : j < 2 ^ names.length) (hk : k < 2 ^ names.length)
    (h : ∀ v ∈ names, (modelOfMask names j).lookup v = (modelOfMask names k).lookup v) :
    j = k := by
  refine eq_of_testBit_eq_of_lt hj hk fun p hp => ?_
  have hi : names.length - 1 - p < names.length := by omega
  have := h _ (List.getElem_mem hi)
  rwa [lookup_modelOfMask_getElem hnd _ _ hi, lookup_modelOfMask_getElem hnd _ _ hi,
    Option.some.injEq, show names.length - 1 - (names.length - 1 - p) = p by omega] at this

/-- Every assignment of truth values to distinct names is the model of the mask that reads
the assignment as a binary number. -/
theorem lookup_modelOfMask_maskOf {names : List (VarName uc)} (hnd : names.Nodup)
    (g : VarName uc → Bool) (v : VarName uc) (hv : v ∈ names) :
    (modelOfMask names (maskOf (names.map g))).lookup v = some (g v) := by
  have hi := List.indexOf_lt_length.2 hv
  rw [lookup_modelOfMask hnd, if_pos hv]
  have := testBit_maskOf (names.map g) (names.indexOf v) (by simpa using hi)
  simp only [List.length_map, List.getElem_map, List.getElem_indexOf] at this
  rw [this]

theorem maskOf_map_lt (names : List (VarName uc)) (g : VarName uc → Bool) :
    maskOf (names.map g) < 2 ^ names.length := by
  simpa using maskOf_lt (names.map g)

/-- Every model `all_models` yields over distinct names defines exactly the names. -/
theorem toFinset_subset_variables_of_mem_allModels {names : List (VarName uc)}
    (hnd : names.Nodup) {m : Model uc} (hm : m ∈ allModels names) :
    names.toFinset ⊆ Model.variables m := by
  obtain ⟨k, -, rfl⟩ := List.mem_map.1 hm
  intro v hv
  rw [Model.mem_variables, mem_modelOfMask hnd]
  exact List.mem_toFinset.1 hv

/-- Every assignment to distinct names agrees on them with one of the models of
`all_models`. -/
theorem exists_mem_allModels_agree {names : List (VarName uc)} (hnd : names.Nodup)
    (ν : VarName uc → Bool) : ∃ m ∈ allModels names, ∀ v ∈ names, m.get v = ν v := by
  refine ⟨modelOfMask names (maskOf (names.map ν)),
    List.mem_map.2 ⟨_, List.mem_range.2 (maskOf_map_lt names ν), rfl⟩, fun v hv => ?_⟩
  rw [Model.get, lookup_modelOfMask_maskOf hnd ν v hv, Option.getD_some]

/-- **`all_models` is a binary counter over the names.** For distinct names `vs` of length
`n`, `all_models(vs)` yields `2 ^ n` models; the `k`-th has key set exactly the names and
maps `vs[i]` to bit `n - 1 - i` of `k`; and every assignment of truth values to the names is
the `k`-th model for exactly one `k`. -/
theorem allModels_binary_counter (names : List (VarName uc)) (hnd : names.Nodup) :
    (allModels names).length = 2 ^ names.length ∧
      (∀ k (hk : k < (allModels names).length),
        (∀ v, v ∈ (allModels names)[k] ↔ v ∈ names) ∧
          ∀ i (hi : i < names.length),
            (allModels names)[k].lookup names[i] = some (k.testBit (names.length - 1 - i))) ∧
      ∀ g : VarName uc → Bool, ∃! k : Nat, ∃ m : Model uc, (allModels names)[k]? = some m ∧
        ∀ v ∈ names, m.lookup v = some (g v) := by
  refine ⟨length_allModels names, fun k hk => ⟨fun v => ?_, fun i hi => ?_⟩, fun g => ?_⟩
  · rw [getElem_allModels, mem_modelOfMask hnd]
  · rw [getElem_allModels, lookup_modelOfMask_getElem hnd _ _ hi]
  · have hlt := maskOf_map_lt names g
    refine ⟨maskOf (names.map g), ⟨modelOfMask names (maskOf (names.map g)),
      by rw [getElem?_allModels, if_pos hlt], lookup_modelOfMask_maskOf hnd g⟩, ?_⟩
    rintro k ⟨m, hm, hagree⟩
    rw [getElem?_allModels] at hm
    split_ifs at hm with hk
    cases hm
    exact eq_of_modelOfMask_agree hnd hk hlt fun v hv => by
      rw [hagree v hv, lookup_modelOfMask_maskOf hnd g v hv]

/-- The binary counter over the distinct names `p`, `q`. -/
theorem allModels_binary_counter_p_q :
    let names : List (VarName .ascii) := [.p, .q]
    names.Nodup ∧ (allModels names).length = 2 ^ names.length ∧
      (∀ k (hk : k < (allModels names).length),
        (∀ v, v ∈ (allModels names)[k] ↔ v ∈ names) ∧
          ∀ i (hi : i < names.length),
            (allModels names)[k].lookup names[i] = some (k.testBit (names.length - 1 - i))) ∧
      ∀ g : VarName .ascii → Bool, ∃! k : Nat, ∃ m : Model .ascii,
        (allModels names)[k]? = some m ∧ ∀ v ∈ names, m.lookup v = some (g v) :=
  ⟨by decide, allModels_binary_counter _ (by decide)⟩

end Propositions
