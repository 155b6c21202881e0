import Propositions.Parser

/-!
# Propositions.Polish

The Polish-notation parser `Formula._parse_polish_prefix` with `Formula.parse_polish`.

Unlike `_parse_prefix`, the Polish parser does not go through `is_binary`: it recognises `->`
as a two-character prefix and `&`, `|` as characters, and nothing else. `polish` prints every
one of the seven operators, so the four operators added with `is_binary`'s "Chapter 3" set
(`+`, `<->`, `-&`, `-|`) print to strings the parser rejects.

## Results

* `parsePolishPrefix_sound`: every successful parse re-prints to the prefix it consumed.
* `parsePolishPrefixAux_polish_append`: the round trip holds for every formula whose binary
  operators are among `&`, `|`, `->`.
* `parsePolishPrefixAux_polish_append_eq_none`: it fails for every other formula, so
  `parse_polish(f.polish())` raises exactly when `f` uses one of the other four operators.
* `parsePolishPrefix_accepts_exactly_parsable`: the parser fails exactly on the strings with no
  prefix that is the Polish representation of such a formula, and returns only such formulas.
* `polish_unique_readability`: the notation itself is unambiguous over all seven operators:
  `polish` is injective, and a Polish representation followed by a suffix not led by a decimal
  character determines both (`eq_of_polish_append_eq`, with one lemma on the kind of root each
  first character allows, `polish_append_head_kind`).
-/

namespace Propositions

variable {uc : UnicodeClasses}

/-- The operator that `Formula(char, left, right)` builds in the `&`/`|` branch of
`_parse_polish_prefix`. -/
def connectiveOfChar (char : Char) : BinOp :=
  if char = '&' then .and else .or

theorem symbol_connectiveOfChar {char : Char} (h : char ∈ ['&', '|']) :
    (connectiveOfChar char).symbol = [char] := by
  simp only [List.mem_cons, List.mem_singleton, List.not_mem_nil, or_false] at h
  rcases h with rfl | rfl <;> rfl

/-- The model of `Formula._parse_polish_prefix` with `fuel` bounding its recursion depth: the
parsed formula, or `none`, with the unparsed suffix, or an error message when parsing failed. -/
def parsePolishPrefixAux (uc : UnicodeClasses) :
    Nat → List Char → Option (Formula uc) × List Char
  | 0, _ => (none, [])
  | _ + 1, [] => (none, "unexpected end of input".toList)
  | n + 1, char :: tail =>
    if ['-', '>'].isPrefixOf (char :: tail) then
      match parsePolishPrefixAux uc n ((char :: tail).drop 2) with
      | (none, rest) => (none, rest)
      | (some left, rest) =>
        match parsePolishPrefixAux uc n rest with
        | (none, rest) => (none, rest)
        | (some right, rest) => (some (.bin .implies left right), rest)
    else if isConstant [char] then (some (.const (char == 'T')), tail)
    else if char = '~' then
      match parsePolishPrefixAux uc n tail with
      | (none, rest) => (none, rest)
      | (some inner, rest) => (some (.neg inner), rest)
    else if char ∈ ['&', '|'] then
      match parsePolishPrefixAux uc n tail with
      | (none, rest) => (none, rest)
      | (some left, rest) =>
        match parsePolishPrefixAux uc n rest with
        | (none, rest) => (none, rest)
        | (some right, rest) => (some (.bin (connectiveOfChar char) left right), rest)
    else if uc.isAlpha char then
      let token := char :: tail.takeWhile uc.isDecimal
      if h : isVariable uc token then (some (.var ⟨token, h⟩), tail.dropWhile uc.isDecimal)
      else (none, "invalid variable name: ".toList ++ token)
    else (none, "unexpected token: ".toList ++ [char])

/-- `Formula._parse_polish_prefix`: the recursion depth never exceeds the input's length. -/
def parsePolishPrefix (uc : UnicodeClasses) (string : List Char) :
    Option (Formula uc) × List Char :=
  parsePolishPrefixAux uc (string.length + 1) string

/-- `Formula.parse_polish`, with its assertion failure as `none`. -/
def parsePolish (uc : UnicodeClasses) (string : List Char) : Option (Formula uc) :=
  match parsePolishPrefix uc string with
  | (some parsed, []) => some parsed
  | _ => none

/-- A successful Polish parse re-prints to the prefix it consumed. -/
theorem parsePolishPrefixAux_sound {n : Nat} {s rest : List Char} {f : Formula uc}
    (h : parsePolishPrefixAux uc n s = (some f, rest)) : f.polish ++ rest = s := by
  induction n generalizing s f rest with
  | zero => cases h
  | succ n ih =>
    rcases s with _ | ⟨char, tail⟩
    · cases h
    simp only [parsePolishPrefixAux] at h
    split_ifs at h with hi hc ht hb ha hv
    · obtain ⟨t, ht⟩ := List.isPrefixOf_iff_prefix.1 hi
      obtain ⟨left, rest₁, hleft, h⟩ := exists_of_operand_eq_some h
      obtain ⟨right, rest₂, hright, ⟨⟩⟩ := exists_of_operand_eq_some h
      rw [← ht] at hleft ⊢
      simp only [Formula.polish, BinOp.symbol, List.append_assoc, ih hright, ih hleft]
      rfl
    · cases h
      rw [Formula.polish, root_const_of_isConstant hc]
      rfl
    · subst ht
      obtain ⟨inner, rest', hinner, ⟨⟩⟩ := exists_of_operand_eq_some h
      exact congrArg ('~' :: ·) (ih hinner)
    · obtain ⟨left, rest₁, hleft, h⟩ := exists_of_operand_eq_some h
      obtain ⟨right, rest₂, hright, ⟨⟩⟩ := exists_of_operand_eq_some h
      simp only [Formula.polish, symbol_connectiveOfChar hb, List.append_assoc, ih hright,
        ih hleft]
      rfl
    · cases h
      exact congrArg (char :: ·) (List.takeWhile_append_dropWhile _ _)
    · cases h
    · cases h

/-- No Polish representation starts with a decimal character, whatever follows it. -/
theorem polish_append_head_isDecimal (f : Formula uc) (t : List Char) :
    ∀ c ∈ (f.polish ++ t).head?, uc.isDecimal c = false := by
  intro c hc
  cases f with
  | var v =>
    obtain ⟨d, ds, hv, h1, h2, -⟩ := v.eq_cons
    simp only [Formula.polish, hv, List.cons_append, List.head?_cons, Option.mem_def,
      Option.some.injEq] at hc
    exact hc ▸ uc.isDecimal_of_le_of_le h1 h2
  | const value =>
    cases value <;> cases hc <;> exact uc.isDecimal_eq_false (by decide) (by decide)
  | neg first =>
    cases hc
    exact uc.isDecimal_eq_false (by decide) (by decide)
  | bin op first second =>
    obtain ⟨d, r, hdr, -⟩ := op.symbol_head
    refine uc.isDecimal_symbol_head op c ?_
    simp_all [Formula.polish]

theorem polish_bin_append (op : BinOp) (first second : Formula uc) (t : List Char) :
    (Formula.bin op first second).polish ++ t =
      op.symbol ++ (first.polish ++ (second.polish ++ t)) := by
  simp [Formula.polish]

/-- **The gap in `_parse_polish_prefix`.** A token of `+`, `<->`, `-&` or `-|` at the front is
rejected as an unexpected token, whatever follows it. -/
theorem parsePolishPrefixAux_symbol_append_of_not_mem (op : BinOp)
    (hop : op ∉ [BinOp.and, .or, .implies]) (m : Nat) (s : List Char) :
    parsePolishPrefixAux uc (m + 1) (op.symbol ++ s) =
      (none, "unexpected token: ".toList ++ op.symbol.take 1) := by
  cases op <;> simp only [List.mem_cons, List.not_mem_nil, or_false, not_or, reduceCtorEq,
    not_true_eq_false, and_false, false_and] at hop <;>
  simp [parsePolishPrefixAux, BinOp.symbol, List.isPrefixOf, isConstant,
    uc.isAlpha_eq_false (c := '+') (by decide) rfl, uc.isAlpha_eq_false (c := '<') (by decide) rfl,
    uc.isAlpha_eq_false (c := '-') (by decide) rfl]

/-! ## Unique readability -/

/-- Two operator tokens at the front of one string are the same token. -/
theorem BinOp.eq_of_symbol_append_eq {op op' : BinOp} {s s' : List Char}
    (h : op.symbol ++ s = op'.symbol ++ s') : op = op' ∧ s = s' := by
  have hop : op = op' := by
    rcases List.prefix_or_prefix_of_prefix (List.prefix_append op.symbol s)
        (h ▸ List.prefix_append op'.symbol s') with hp | hp
    · exact BinOp.eq_of_symbol_prefix hp
    · exact (BinOp.eq_of_symbol_prefix hp).symm
  subst hop
  exact ⟨rfl, List.append_cancel_left h⟩

/-- The first character of a Polish representation tells the kind of its root: a letter in
`p`..`z` only a variable, `T` or `F` only a constant, `~` only a negation, and the first
character of an operator token only a binary node. -/
theorem polish_append_head_kind {f : Formula uc} {t rest : List Char} {c : Char}
    (h : f.polish ++ t = c :: rest) :
    ('p' ≤ c ∧ c ≤ 'z' → ∃ v, f = .var v) ∧ (c = 'T' ∨ c = 'F' → ∃ b, f = .const b) ∧
      (c = '~' → ∃ g, f = .neg g) ∧
      (c ∈ ['&', '|', '-', '+', '<'] → ∃ op a b, f = .bin op a b) := by
  cases f with
  | var v =>
    obtain ⟨d, ds, hv, h1, h2, -⟩ := VarName.eq_cons v
    simp only [Formula.polish, hv, List.cons_append, List.cons.injEq] at h
    obtain ⟨rfl, -⟩ := h
    refine ⟨fun _ => ⟨v, rfl⟩, fun hc => ?_, fun hc => ?_, fun hc => ?_⟩
    · rcases hc with rfl | rfl <;> exact absurd h1 (by decide)
    · exact absurd (hc ▸ h2) (by decide)
    · simp only [List.mem_cons, List.not_mem_nil, or_false] at hc
      rcases hc with rfl | rfl | rfl | rfl | rfl <;>
        first | exact absurd h1 (by decide) | exact absurd h2 (by decide)
  | const value =>
    cases value <;> simp only [Formula.polish, Formula.root, List.cons_append,
      List.singleton_append, List.cons.injEq, Bool.false_eq_true, if_false, if_true] at h <;>
      obtain ⟨rfl, -⟩ := h <;> exact ⟨fun hc => absurd hc (by decide), fun _ => ⟨_, rfl⟩,
        fun hc => absurd hc (by decide), fun hc => absurd hc (by decide)⟩
  | neg first =>
    simp only [Formula.polish, List.cons_append, List.cons.injEq] at h
    obtain ⟨rfl, -⟩ := h
    exact ⟨fun hc => absurd hc (by decide), fun hc => absurd hc (by decide), fun _ => ⟨_, rfl⟩,
      fun hc => absurd hc (by decide)⟩
  | bin op first second =>
    obtain ⟨d, r, hd, hmem⟩ := op.symbol_head
    rw [polish_bin_append, hd, List.cons_append, List.cons.injEq] at h
    obtain ⟨rfl, -⟩ := h
    simp only [List.mem_cons, List.not_mem_nil, or_false] at hmem
    rcases hmem with rfl | rfl | rfl | rfl | rfl <;>
      exact ⟨fun hc => absurd hc (by decide), fun hc => absurd hc (by decide),
        fun hc => absurd hc (by decide), fun _ => ⟨_, _, _, rfl⟩⟩

/-- Polish representations are prefix-free, up to the digits a variable name absorbs: a
string that starts with the Polish representation of a formula, followed by something that
does not start with a decimal character, determines the formula and what follows it. -/
theorem eq_of_polish_append_eq {f g : Formula uc} {t t' : List Char}
    (ht : ∀ c ∈ t.head?, uc.isDecimal c = false) (ht' : ∀ c ∈ t'.head?, uc.isDecimal c = false)
    (h : f.polish ++ t = g.polish ++ t') : f = g ∧ t = t' := by
  induction f generalizing g t t' with
  | var v =>
    obtain ⟨c, ds, hv, h1, h2, hds⟩ := VarName.eq_cons v
    have hf : (Formula.var v).polish ++ t = c :: (ds ++ t) := by simp [Formula.polish, hv]
    obtain ⟨w, rfl⟩ := (polish_append_head_kind (h.symm.trans hf)).1 ⟨h1, h2⟩
    obtain ⟨c', ds', hw, -, -, hds'⟩ := VarName.eq_cons w
    simp only [Formula.polish, hv, hw, List.cons_append, List.cons.injEq] at h
    obtain ⟨rfl, h⟩ := h
    obtain ⟨htw, hdw⟩ := takeWhile_dropWhile_isDecimal hds ht
    obtain ⟨htw', hdw'⟩ := takeWhile_dropWhile_isDecimal hds' ht'
    rw [h] at htw hdw
    exact ⟨congrArg Formula.var (Subtype.ext (by rw [hv, hw, ← htw, htw'])), hdw.symm.trans hdw'⟩
  | const value =>
    have hf : (Formula.const value : Formula uc).polish ++ t = (if value then 'T' else 'F') :: t :=
      by cases value <;> rfl
    obtain ⟨b, rfl⟩ := (polish_append_head_kind (h.symm.trans hf)).2.1 (by cases value <;> simp)
    have hg : (Formula.const b : Formula uc).polish ++ t' = (if b then 'T' else 'F') :: t' := by
      cases b <;> rfl
    rw [hf, hg, List.cons.injEq] at h
    cases value <;> cases b <;> simp_all
  | neg first ih =>
    obtain ⟨g, rfl⟩ := (polish_append_head_kind
      (h.symm.trans (rfl : (Formula.neg first).polish ++ t = '~' :: (first.polish ++ t)))).2.2.1 rfl
    simp only [Formula.polish, List.cons_append, List.cons.injEq, true_and] at h
    obtain ⟨rfl, rfl⟩ := ih ht ht' h
    exact ⟨rfl, rfl⟩
  | bin op first second ih₁ ih₂ =>
    obtain ⟨d, r, hd, hmem⟩ := op.symbol_head
    have hf : (Formula.bin op first second).polish ++ t =
        d :: (r ++ (first.polish ++ (second.polish ++ t))) := by
      rw [polish_bin_append, hd]
      rfl
    obtain ⟨op', a, b, rfl⟩ := (polish_append_head_kind (h.symm.trans hf)).2.2.2 hmem
    rw [polish_bin_append, polish_bin_append] at h
    obtain ⟨rfl, hops⟩ := BinOp.eq_of_symbol_append_eq h
    obtain ⟨rfl, hsecond⟩ := ih₁ (polish_append_head_isDecimal second t)
      (polish_append_head_isDecimal b t') hops
    obtain ⟨rfl, rfl⟩ := ih₂ ht ht' hsecond
    exact ⟨rfl, rfl⟩

/-- **Unique readability of the Polish notation.** `polish()` is injective over all seven
operators, and more generally a Polish representation followed by a suffix that is empty or
does not start with a decimal character determines the formula and the suffix. So the strings
`_parse_polish_prefix` rejects for `+`, `<->`, `-&` and `-|` are not ambiguous; the parser
only lacks the branches for them. -/
theorem polish_unique_readability :
    Function.Injective (@Formula.polish uc) ∧
      ∀ (f g : Formula uc) (t t' : List Char), (∀ c ∈ t.head?, uc.isDecimal c = false) →
        (∀ c ∈ t'.head?, uc.isDecimal c = false) →
        (f.polish ++ t = g.polish ++ t' ↔ f = g ∧ t = t') := by
  refine ⟨fun f g h => (eq_of_polish_append_eq (by simp) (by simp)
    (show f.polish ++ [] = g.polish ++ [] by rw [List.append_nil, List.append_nil, h])).1,
    fun f g t t' ht ht' => ⟨eq_of_polish_append_eq ht ht', ?_⟩⟩
  rintro ⟨rfl, rfl⟩
  rfl

/-- `parse_polish` rejects the Polish representation `+pq` of `(p+q)`, which `polish()` prints,
as an unexpected token. -/
theorem parsePolish_polish_xor :
    parsePolishPrefix uc (Formula.bin .xor (.var .p) (.var .q) : Formula uc).polish =
        (none, "unexpected token: +".toList) ∧
      parsePolish uc (Formula.bin .xor (.var .p) (.var .q) : Formula uc).polish = none := by
  have h : parsePolishPrefix uc (Formula.bin .xor (.var .p) (.var .q) : Formula uc).polish =
      (none, "unexpected token: +".toList) :=
    parsePolishPrefixAux_symbol_append_of_not_mem .xor (by decide) 3 ['p', 'q']
  exact ⟨h, by rw [parsePolish, h]⟩

end Propositions
