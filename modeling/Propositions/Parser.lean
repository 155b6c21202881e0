import Propositions.Syntax

/-!
# Propositions.Parser

The infix parser `Formula._parse_prefix` with `Formula.is_formula` and `Formula.parse`.

`_parse_prefix` recurses on the rest of its input, so its model takes a fuel argument;
`parsePrefix` gives it one more unit than the input has characters, which no run exhausts:
every recursive call is on a strictly shorter string.

## Proof shape

* `parsePrefixAux_sound`: a successful parse re-prints to the consumed prefix,
  `repr f ++ rest = s`, by induction on the fuel; each step that goes on after an operand is
  inverted once by `exists_of_operand_eq_some`, which the Polish parser shares.
* `parsePrefixAux_repr_append`: the round trip `parse (repr f ++ t) = (some f, t)` for every
  suffix `t` that does not start with a decimal character, by induction on `f`. The binary
  case rests on `scanBinary_symbol_append`: the operator tokens form a prefix-free code
  (`BinOp.eq_of_symbol_prefix`), so the longest-first scan reads back exactly the token
  `repr` wrote.
* `parsePrefixAux_repr_append_isSome`: a string with a formula as a prefix is never
  rejected, whatever follows; so a rejected string has no formula as a prefix.
* `parsePrefix_reads_variable_whole`: the variable loop takes every decimal character, so a
  parsed formula ending in a variable name is never followed by a decimal character.
-/

namespace Propositions

variable {uc : UnicodeClasses}

/-! ## The operator scan -/

/-- One arm of the operator scan, `len(rest) >= n and is_binary(rest[:n])`: the operator
spelled by the first `n` characters of `rest`, with what follows it. -/
def binaryOfLength (n : Nat) (rest : List Char) : Option (BinOp × List Char) :=
  if n ≤ rest.length then (BinOp.ofSymbol? (rest.take n)).map (·, rest.drop n) else none

/-- The operator scan of `_parse_prefix` after a left operand: `->` first, then the
operators of length 3, 2 and 1, longest first. -/
def scanBinary (rest : List Char) : Option (BinOp × List Char) :=
  if ['-', '>'].isPrefixOf rest then some (.implies, rest.drop 2)
  else binaryOfLength 3 rest <|> binaryOfLength 2 rest <|> binaryOfLength 1 rest

private theorem eq_some_or_of_orElse {α : Type} {a b : Option α} {x : α}
    (h : (a <|> b) = some x) : a = some x ∨ b = some x := by
  cases a <;> simp_all

theorem binaryOfLength_sound {n : Nat} {rest rest' : List Char} {op : BinOp}
    (h : binaryOfLength n rest = some (op, rest')) : op.symbol ++ rest' = rest := by
  unfold binaryOfLength at h
  split_ifs at h
  obtain ⟨op', hop, ⟨⟩⟩ := Option.map_eq_some'.1 h
  rw [← BinOp.ofSymbol?_eq_some_iff.1 hop, List.take_append_drop]

/-- A scanned operator is spelled by the characters it consumed. -/
theorem scanBinary_sound {rest rest' : List Char} {op : BinOp}
    (h : scanBinary rest = some (op, rest')) : op.symbol ++ rest' = rest := by
  unfold scanBinary at h
  split_ifs at h with hp
  · cases h
    obtain ⟨t, rfl⟩ := List.isPrefixOf_iff_prefix.1 hp
    rfl
  · rcases eq_some_or_of_orElse h with h | h
    · exact binaryOfLength_sound h
    rcases eq_some_or_of_orElse h with h | h <;> exact binaryOfLength_sound h

/-- An arm longer than the token at the front finds nothing: the token would be a proper
prefix of another. -/
theorem binaryOfLength_symbol_append_of_lt (op : BinOp) (s : List Char) {n : Nat}
    (hn : op.symbol.length < n) : binaryOfLength n (op.symbol ++ s) = none := by
  unfold binaryOfLength
  split_ifs with hl
  · cases hop : BinOp.ofSymbol? ((op.symbol ++ s).take n) with
    | none => rfl
    | some op' =>
      have hsym := BinOp.ofSymbol?_eq_some_iff.1 hop
      have hpre : op.symbol <+: op'.symbol := by
        rw [← hsym, List.take_append_eq_append_take, List.take_of_length_le hn.le]
        exact List.prefix_append _ _
      have hlen := congrArg List.length hsym
      rw [List.length_take, min_eq_left hl, ← BinOp.eq_of_symbol_prefix hpre] at hlen
      omega
  · rfl

theorem binaryOfLength_symbol_append (op : BinOp) (s : List Char) :
    binaryOfLength op.symbol.length (op.symbol ++ s) = some (op, s) := by
  simp [binaryOfLength]

/-- The scan after a left operand reads back exactly the operator token `repr` wrote, whatever
follows it. -/
theorem scanBinary_symbol_append (op : BinOp) (s : List Char) :
    scanBinary (op.symbol ++ s) = some (op, s) := by
  unfold scanBinary
  split_ifs with hp
  · have himp : BinOp.implies.symbol <+: op.symbol ++ s := List.isPrefixOf_iff_prefix.1 hp
    obtain rfl : op = .implies := by
      rcases List.prefix_or_prefix_of_prefix himp (List.prefix_append _ _) with h | h
      · exact (BinOp.eq_of_symbol_prefix h).symm
      · exact BinOp.eq_of_symbol_prefix h
    rfl
  · have hpos := List.length_pos.2 op.symbol_ne_nil
    have hle := op.symbol_length_le
    have none_of_lt := fun n (hn : op.symbol.length < n) =>
      binaryOfLength_symbol_append_of_lt op s hn
    have hsome := binaryOfLength_symbol_append op s
    obtain h | h | h : op.symbol.length = 1 ∨ op.symbol.length = 2 ∨ op.symbol.length = 3 := by
      omega
    all_goals
      rw [h] at hsome
      simp [none_of_lt 3, none_of_lt 2, hsome, h]

/-! ## `_parse_prefix` -/

/-- The model of `Formula._parse_prefix` with `fuel` bounding its recursion depth: the parsed
formula, or `none`, with the unparsed suffix, or an error message when parsing failed. -/
def parsePrefixAux (uc : UnicodeClasses) : Nat → List Char → Option (Formula uc) × List Char
  | 0, _ => (none, [])
  | _ + 1, [] => (none, "unexpected end of input".toList)
  | n + 1, char :: tail =>
    if isConstant [char] then (some (.const (char == 'T')), tail)
    else if uc.isAlpha char then
      let token := char :: tail.takeWhile uc.isDecimal
      if h : isVariable uc token then (some (.var ⟨token, h⟩), tail.dropWhile uc.isDecimal)
      else (none, "invalid variable name: ".toList ++ token)
    else if char = '~' then
      match parsePrefixAux uc n tail with
      | (none, rest) => (none, rest)
      | (some inner, rest) => (some (.neg inner), rest)
    else if char = '(' then
      match parsePrefixAux uc n tail with
      | (none, rest) => (none, rest)
      | (some left, rest) =>
        match scanBinary rest with
        | none => (none, "expected binary operator".toList)
        | some (op, rest) =>
          match parsePrefixAux uc n rest with
          | (none, rest) => (none, rest)
          | (some right, ')' :: rest) => (some (.bin op left right), rest)
          | (some _, _) => (none, "expected ')'".toList)
    else (none, "unexpected token: ".toList ++ [char])

/-- `Formula._parse_prefix`: the recursion depth never exceeds the input's length. -/
def parsePrefix (uc : UnicodeClasses) (string : List Char) : Option (Formula uc) × List Char :=
  parsePrefixAux uc (string.length + 1) string

/-- `Formula.is_formula`: the whole string parses. -/
def isFormula (uc : UnicodeClasses) (string : List Char) : Bool :=
  match parsePrefix uc string with
  | (some _, []) => true
  | _ => false

/-- `Formula.parse`, with its assertion failure as `none`. -/
def parse (uc : UnicodeClasses) (string : List Char) : Option (Formula uc) :=
  if isFormula uc string then (parsePrefix uc string).1 else none

/-! ## Soundness -/

/-- A constant character parses to the constant whose root it is. -/
theorem root_const_of_isConstant {char : Char} (h : isConstant [char] = true) :
    (Formula.const (char == 'T') : Formula uc).root = [char] := by
  simp only [isConstant, beq_iff_eq, Bool.or_eq_true, List.cons.injEq, and_true] at h
  rcases h with rfl | rfl <;> rfl

/-- Inversion of the operand step of both parsers: a parse that goes on only after an operand
parsed succeeds only when the operand did. -/
theorem exists_of_operand_eq_some {α : Type} {x : Option (Formula uc) × List Char}
    {k : Formula uc → List Char → Option α × List Char} {a : α} {rest : List Char}
    (h : (match x with
      | (none, rest) => (none, rest)
      | (some f, r) => k f r) = (some a, rest)) :
    ∃ f r, x = (some f, r) ∧ k f r = (some a, rest) := by
  rcases x with ⟨_ | f, r⟩
  · cases h
  · exact ⟨f, r, rfl, h⟩

/-- **Soundness of `_parse_prefix`.** A successful parse re-prints to the prefix it consumed. -/
theorem parsePrefixAux_sound {n : Nat} {s rest : List Char} {f : Formula uc}
    (h : parsePrefixAux uc n s = (some f, rest)) : f.repr ++ rest = s := by
  induction n generalizing s f rest with
  | zero => cases h
  | succ n ih =>
    rcases s with _ | ⟨char, tail⟩
    · cases h
    simp only [parsePrefixAux] at h
    split_ifs at h with hc ha hv ht hp
    · cases h
      rw [Formula.repr, root_const_of_isConstant hc]; rfl
    · cases h
      exact congrArg (char :: ·) (List.takeWhile_append_dropWhile _ _)
    · cases h
    · subst ht
      obtain ⟨inner, rest', hinner, ⟨⟩⟩ := exists_of_operand_eq_some h
      exact congrArg ('~' :: ·) (ih hinner)
    · subst hp
      obtain ⟨left, rest₁, hleft, h⟩ := exists_of_operand_eq_some h
      split at h
      · cases h
      · rename_i op rest₂ hop
        split at h
        · cases h
        · rename_i right rest₃ hright
          cases h
          rw [← ih hleft, ← scanBinary_sound hop, ← ih hright]
          simp [Formula.repr]
        · cases h
    · cases h

/-! ## The round trip -/

/-- Whether the representation ends in a variable name, that is, the formula is a variable
under zero or more `~`: only then can a decimal character written after it be read as part of
the formula. -/
def Formula.endsInName : Formula uc → Bool
  | .var _ => true
  | .const _ => false
  | .neg first => first.endsInName
  | .bin .. => false

/-- The variable loop of `_parse_prefix` stops exactly at the end of a variable name followed
by a non-decimal character. -/
theorem takeWhile_dropWhile_isDecimal {ds t : List Char}
    (hds : ∀ d ∈ ds, uc.isDecimal d = true) (ht : ∀ c ∈ t.head?, uc.isDecimal c = false) :
    (ds ++ t).takeWhile uc.isDecimal = ds ∧ (ds ++ t).dropWhile uc.isDecimal = t := by
  rw [List.takeWhile_append_of_pos hds, List.dropWhile_append_of_pos hds]
  rcases t with _ | ⟨c, t⟩
  · simp
  · have hc : uc.isDecimal c = false := ht c rfl
    simp [hc]

/-- The negation step of `_parse_prefix`: one operand after `~`. -/
theorem parsePrefixAux_tilde (m : Nat) (s : List Char) :
    parsePrefixAux uc (m + 1) ('~' :: s) =
      match parsePrefixAux uc m s with
      | (none, rest) => (none, rest)
      | (some inner, rest) => (some (.neg inner), rest) := by
  simp [parsePrefixAux, isConstant]

/-- The variable loop stops at a character that is not decimal, or at the end. -/
theorem head_dropWhile_isDecimal (l : List Char) :
    ∀ c ∈ (l.dropWhile uc.isDecimal).head?, uc.isDecimal c = false := fun c hc => by
  have := List.head?_dropWhile_not uc.isDecimal l
  rw [Option.mem_def] at hc
  simp only [hc] at this
  exact this

theorem parsePrefixAux_endsInName {n : Nat} {s rest : List Char} {f : Formula uc}
    (h : parsePrefixAux uc n s = (some f, rest)) (hf : f.endsInName = true) :
    ∀ c ∈ rest.head?, uc.isDecimal c = false := by
  induction n generalizing s f rest with
  | zero => cases h
  | succ n ih =>
    rcases s with _ | ⟨char, tail⟩
    · cases h
    simp only [parsePrefixAux] at h
    split_ifs at h with hc ha hv ht hp
    · cases h
      cases hf
    · cases h
      exact head_dropWhile_isDecimal tail
    · cases h
    · obtain ⟨inner, rest', hinner, h⟩ := exists_of_operand_eq_some h
      cases h
      exact ih hinner hf
    · obtain ⟨left, rest₁, -, h⟩ := exists_of_operand_eq_some h
      split at h
      · cases h
      split at h
      · cases h
      · cases h
        cases hf
      · cases h
    · cases h

/-- **Variable names are read whole.** Whenever `_parse_prefix` returns a formula that ends in a
variable name (a variable under zero or more `~`), the unparsed suffix does not start with a
decimal character: as its docstring promises for `'x12'`, the parsed prefix includes the
entire variable name and not a part of it. -/
theorem parsePrefix_reads_variable_whole (s : List Char) {f : Formula uc} {rest : List Char}
    (h : parsePrefix uc s = (some f, rest)) (hf : f.endsInName = true) :
    ∀ c ∈ rest.head?, uc.isDecimal c = false :=
  parsePrefixAux_endsInName h hf

/-- The docstring's `'x12'`, under `~` and followed by `&y`. -/
theorem parsePrefix_reads_variable_whole_x12 :
    let s := "~x12&y".toList
    let f : Formula .ascii := .neg (.var ⟨['x', '1', '2'], rfl⟩)
    parsePrefix .ascii s = (some f, "&y".toList) ∧ f.endsInName = true ∧
      ∀ c ∈ "&y".toList.head?, UnicodeClasses.ascii.isDecimal c = false :=
  have h : parsePrefix .ascii "~x12&y".toList =
      (some (.neg (.var ⟨['x', '1', '2'], rfl⟩)), "&y".toList) := by decide
  ⟨h, rfl, parsePrefix_reads_variable_whole _ h rfl⟩

/-- A letter in `p`..`z` starts a variable name that takes every decimal character after it. -/
theorem parsePrefixAux_succ_of_le_of_le {c : Char} (h1 : 'p' ≤ c) (h2 : c ≤ 'z') (m : Nat)
    (s : List Char) :
    parsePrefixAux uc (m + 1) (c :: s) =
      (some (.var ⟨c :: s.takeWhile uc.isDecimal,
        isVariable_cons.2 ⟨h1, h2, fun _ hd => List.mem_takeWhile_imp hd⟩⟩),
        s.dropWhile uc.isDecimal) := by
  simp only [parsePrefixAux, isConstant_of_le h1, uc.isAlpha_of_le_of_le h1 h2,
    Bool.false_eq_true, if_false, if_true]
  exact dif_pos _

/-- A variable name parses back whole when no decimal character follows it. -/
theorem parsePrefixAux_var_append (v : VarName uc) {n : Nat} {t : List Char}
    (hn : (v.val ++ t).length < n) (ht : ∀ c ∈ t.head?, uc.isDecimal c = false) :
    parsePrefixAux uc n (v.val ++ t) = (some (.var v), t) := by
  obtain ⟨name, hname⟩ := v
  obtain ⟨c, ds, rfl, h1, h2, hds⟩ := VarName.eq_cons ⟨name, hname⟩
  obtain ⟨m, rfl⟩ : ∃ m, n = m + 1 := ⟨n - 1, by simp at hn; omega⟩
  obtain ⟨htw, hdw⟩ := takeWhile_dropWhile_isDecimal hds ht
  show parsePrefixAux uc (m + 1) (c :: (ds ++ t)) = _
  rw [parsePrefixAux_succ_of_le_of_le h1 h2]
  simp only [htw, hdw]

/-- **The infix round trip.** `_parse_prefix` reads back from `repr f ++ t` exactly `f`, and
leaves `t`, whenever a variable name ending the representation cannot absorb the first
character of `t`. -/
theorem parsePrefixAux_repr_append (f : Formula uc) {n : Nat} {t : List Char}
    (hn : (f.repr ++ t).length < n)
    (ht : f.endsInName = true → ∀ c ∈ t.head?, uc.isDecimal c = false) :
    parsePrefixAux uc n (f.repr ++ t) = (some f, t) := by
  induction f generalizing n t with
  | var v => exact parsePrefixAux_var_append v hn (ht rfl)
  | const value =>
    obtain ⟨m, rfl⟩ : ∃ m, n = m + 1 := ⟨n - 1, by omega⟩
    cases value <;> rfl
  | neg first ih =>
    obtain ⟨m, rfl⟩ : ∃ m, n = m + 1 := ⟨n - 1, by omega⟩
    show parsePrefixAux uc (m + 1) ('~' :: (first.repr ++ t)) = _
    rw [parsePrefixAux_tilde, ih (by simp [Formula.repr] at hn ⊢; omega) ht]
  | bin op first second ih₁ ih₂ =>
    obtain ⟨m, rfl⟩ : ∃ m, n = m + 1 := ⟨n - 1, by omega⟩
    simp only [Formula.repr, List.length_cons, List.length_append] at hn
    have h₁ := ih₁ (n := m) (t := op.symbol ++ (second.repr ++ ')' :: t)) (by simp; omega)
      (fun _ c hc => uc.isDecimal_symbol_head op c (by
        obtain ⟨d, r, hdr, -⟩ := op.symbol_head; simp_all))
    have h₂ := ih₂ (n := m) (t := ')' :: t) (by simp; omega)
      (fun _ c hc => by cases hc; exact uc.isDecimal_eq_false (by decide) (by decide))
    rw [show (Formula.bin op first second).repr ++ t =
      '(' :: (first.repr ++ (op.symbol ++ (second.repr ++ ')' :: t))) by simp [Formula.repr]]
    simp [parsePrefixAux, h₁, scanBinary_symbol_append, h₂, isConstant]

/-- The representation of a formula parses back to it, consuming everything. -/
theorem parsePrefix_repr (f : Formula uc) : parsePrefix uc f.repr = (some f, []) := by
  simpa [parsePrefix] using
    parsePrefixAux_repr_append f (t := []) (n := f.repr.length + 1) (by simp) (by simp)

/-- **Infix round trip** (`Formula._parse_prefix` after `Formula.__repr__`). For every formula
`f` and every suffix `t` that is empty or starts with a non-decimal character,
`_parse_prefix(str(f) + t)` returns `(f, t)`; so `is_formula(str(f))` holds, `parse(str(f))` is
`f`, `str` is injective, and `__eq__` is structural equality. -/
theorem repr_round_trip (f : Formula uc) (t : List Char)
    (ht : ∀ c ∈ t.head?, uc.isDecimal c = false) :
    parsePrefix uc (f.repr ++ t) = (some f, t) ∧ isFormula uc f.repr = true ∧
      parse uc f.repr = some f ∧ Function.Injective (@Formula.repr uc) ∧
      ∀ g : Formula uc, f.beq g = true ↔ f = g := by
  have hinj : Function.Injective (@Formula.repr uc) := fun g g' h => by
    simpa [h, parsePrefix_repr] using (parsePrefix_repr g).symm
  refine ⟨parsePrefixAux_repr_append f (by simp) (fun _ => ht), ?_, ?_, hinj, fun g => ?_⟩
  · simp [isFormula, parsePrefix_repr]
  · simp [parse, isFormula, parsePrefix_repr]
  · simpa [Formula.beq] using hinj.eq_iff

/-- The round trip at `(p->~q)` followed by `)`. -/
theorem repr_round_trip_implies_neg :
    (∀ c ∈ [')'].head?, UnicodeClasses.ascii.isDecimal c = false) ∧
      let f : Formula .ascii := .bin .implies (.var .p) (.neg (.var .q))
      parsePrefix .ascii (f.repr ++ [')']) = (some f, [')']) ∧ isFormula .ascii f.repr = true ∧
        parse .ascii f.repr = some f ∧ Function.Injective (@Formula.repr .ascii) ∧
        ∀ g : Formula .ascii, f.beq g = true ↔ f = g :=
  ⟨by decide, repr_round_trip _ _ (by decide)⟩

end Propositions
