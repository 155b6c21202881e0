import Propositions.Polish

/-!
# Propositions.ParseErrors

What `Formula._parse_prefix` and `Formula._parse_polish_prefix` do on every string, accepted or
not: how deep they recurse, and which messages they fail with.

* `parsers_fuel_independent`: each recursive call consumes at least one character, so on a
  string `s` both parsers return within `len(s) + 1` nested calls; in the model, every fuel
  above `len(s)` gives the result of the top-level call.
* `parse_errors`: a failure carries one of the messages the code builds, and a message that
  quotes the input quotes a piece of it that cannot start a formula there: a letter run that is
  not a variable name, or a character no branch accepts.

## Proof shape

Both are inductions on the fuel that follow the parser's branches. A recursive call is on a
suffix of the input: the tail after the first character, or what is left after an operand,
which soundness (`parsePrefixAux_sound`, `parsePolishPrefixAux_sound`) shows is shorter. The
operand steps are inverted once (`operand_congr`, `eq_none_or_of_operand_eq_none`), and the
failure messages of the two parsers are one predicate, `ParseError`, that grows along suffixes.
-/

namespace Propositions

variable {uc : UnicodeClasses}

/-! ## The operand step -/

/-- Inversion of a failed operand step: the operand failed with the same message, or it parsed
and the rest of the step failed. -/
theorem eq_none_or_of_operand_eq_none {α : Type} {x : Option (Formula uc) × List Char}
    {k : Formula uc → List Char → Option α × List Char} {msg : List Char}
    (h : (match x with
      | (none, rest) => (none, rest)
      | (some f, r) => k f r) = (none, msg)) :
    x = (none, msg) ∨ ∃ f r, x = (some f, r) ∧ k f r = (none, msg) := by
  rcases x with ⟨_ | f, r⟩
  · cases h
    exact .inl rfl
  · exact .inr ⟨f, r, rfl, h⟩

/-! ## Recursion depth -/

/-- The failures of a parser on `string`, as its code words them, for a parser whose compound
formulas start with a character of `starters` and whose other failures are the messages
`fixed`: the end of the input; a letter followed by decimal characters that is not a variable
name, quoted from the input; or a character of the input that no branch accepts. -/
def ParseError (uc : UnicodeClasses) (starters : List Char) (fixed : List (List Char))
    (string message : List Char) : Prop :=
  message ∈ "unexpected end of input".toList :: fixed ∨
    (∃ char digits, char :: digits <:+: string ∧ uc.isAlpha char = true ∧
      (∀ d ∈ digits, uc.isDecimal d = true) ∧ isVariable uc (char :: digits) = false ∧
      message = "invalid variable name: ".toList ++ char :: digits) ∨
    ∃ char ∈ string, isConstant [char] = false ∧ uc.isAlpha char = false ∧ char ∉ starters ∧
      message = "unexpected token: ".toList ++ [char]

/-- A failure on a suffix is a failure on the whole string: messages quote only the input. -/
theorem ParseError.of_suffix {starters : List Char} {fixed : List (List Char)}
    {s t msg : List Char} (hst : s <:+ t) (h : ParseError uc starters fixed s msg) :
    ParseError uc starters fixed t msg := by
  rcases h with h | ⟨c, ds, hinf, h⟩ | ⟨c, hc, h⟩
  · exact .inl h
  · exact .inr (.inl ⟨c, ds, hinf.trans hst.isInfix, h⟩)
  · exact .inr (.inr ⟨c, hst.subset hc, h⟩)

/-- The variable branch shared by both parsers: a letter that does not start a variable name
is quoted with the decimal characters after it. -/
theorem ParseError.of_not_isVariable {starters : List Char} {fixed : List (List Char)}
    {c : Char} {tail : List Char} (ha : uc.isAlpha c = true)
    (hv : ¬isVariable uc (c :: tail.takeWhile uc.isDecimal) = true) :
    ParseError uc starters fixed (c :: tail)
      ("invalid variable name: ".toList ++ c :: tail.takeWhile uc.isDecimal) :=
  .inr (.inl ⟨c, _, (List.cons_prefix_cons.2 ⟨rfl, List.takeWhile_prefix _⟩).isInfix, ha,
    fun _ hd => List.mem_takeWhile_imp hd, Bool.eq_false_iff.2 hv, rfl⟩)

theorem parsePrefixAux_error {n : Nat} {s msg : List Char} (hn : s.length < n)
    (h : parsePrefixAux uc n s = (none, msg)) :
    ParseError uc ['~', '('] ["expected binary operator".toList, "expected ')'".toList] s msg := by
  induction n generalizing s msg with
  | zero => omega
  | succ n ih =>
    rcases s with _ | ⟨c, tail⟩
    · cases h
      exact .inl (List.mem_cons_self _ _)
    simp only [List.length_cons, Nat.add_lt_add_iff_right] at hn
    have htail : tail <:+ c :: tail := List.suffix_cons c tail
    rw [parsePrefixAux] at h
    by_cases hc : isConstant [c] = true
    · rw [if_pos hc] at h
      cases h
    rw [if_neg hc] at h
    by_cases ha : uc.isAlpha c = true
    · rw [if_pos ha] at h
      by_cases hv : isVariable uc (c :: tail.takeWhile uc.isDecimal) = true
      · rw [dif_pos hv] at h
        cases h
      · rw [dif_neg hv] at h
        cases h
        exact .of_not_isVariable ha hv
    rw [if_neg ha] at h
    by_cases ht : c = '~'
    · rw [if_pos ht] at h
      rcases eq_none_or_of_operand_eq_none h with h | ⟨_, _, -, h⟩
      · exact (ih hn h).of_suffix htail
      · cases h
    rw [if_neg ht] at h
    by_cases hp : c = '('
    · rw [if_pos hp] at h
      rcases eq_none_or_of_operand_eq_none h with h | ⟨left, rest, hl, h⟩
      · exact (ih hn h).of_suffix htail
      have hrest : rest <:+ tail := ⟨left.repr, parsePrefixAux_sound hl⟩
      split at h
      · cases h
        exact .inl (by simp)
      rename_i op rest' hsc
      have hrest' : rest' <:+ tail := .trans ⟨op.symbol, scanBinary_sound hsc⟩ hrest
      split at h
      · rename_i hr
        cases h
        exact (ih (by have := hrest'.length_le; omega) hr).of_suffix (hrest'.trans htail)
      · cases h
      · cases h
        exact .inl (by simp)
    rw [if_neg hp] at h
    cases h
    exact .inr (.inr ⟨c, List.mem_cons_self c tail, Bool.eq_false_iff.2 hc,
      Bool.eq_false_iff.2 ha, by simp [ht, hp], rfl⟩)

theorem parsePolishPrefixAux_error {n : Nat} {s msg : List Char} (hn : s.length < n)
    (h : parsePolishPrefixAux uc n s = (none, msg)) :
    ParseError uc ['~', '&', '|'] [] s msg := by
  induction n generalizing s msg with
  | zero => omega
  | succ n ih =>
    rcases s with _ | ⟨c, tail⟩
    · cases h
      exact .inl (List.mem_cons_self _ _)
    simp only [List.length_cons, Nat.add_lt_add_iff_right] at hn
    have htail : tail <:+ c :: tail := List.suffix_cons c tail
    have hsecond : ∀ {t rest : List Char} {left : Formula uc}, t <:+ c :: tail →
        t.length ≤ tail.length → parsePolishPrefixAux uc n t = (some left, rest) →
        parsePolishPrefixAux uc n rest = (none, msg) →
        ParseError uc ['~', '&', '|'] [] (c :: tail) msg :=
      fun {t rest left} ht hlen hl h => by
        have hrest : rest <:+ t := ⟨left.polish, parsePolishPrefixAux_sound hl⟩
        exact (ih (by have := hrest.length_le; omega) h).of_suffix (hrest.trans ht)
    rw [parsePolishPrefixAux] at h
    by_cases hi : ['-', '>'].isPrefixOf (c :: tail) = true
    · rw [if_pos hi] at h
      have hdrop : (c :: tail).drop 2 <:+ c :: tail := List.drop_suffix 2 _
      have hlen : ((c :: tail).drop 2).length ≤ tail.length := by simp
      rcases eq_none_or_of_operand_eq_none h with h | ⟨left, rest, hl, h⟩
      · exact (ih (by omega) h).of_suffix hdrop
      rcases eq_none_or_of_operand_eq_none h with h | ⟨_, _, -, h⟩
      · exact hsecond hdrop hlen hl h
      · cases h
    rw [if_neg hi] at h
    by_cases hc : isConstant [c] = true
    · rw [if_pos hc] at h
      cases h
    rw [if_neg hc] at h
    by_cases ht : c = '~'
    · rw [if_pos ht] at h
      rcases eq_none_or_of_operand_eq_none h with h | ⟨_, _, -, h⟩
      · exact (ih hn h).of_suffix htail
      · cases h
    rw [if_neg ht] at h
    by_cases hb : c ∈ ['&', '|']
    · rw [if_pos hb] at h
      rcases eq_none_or_of_operand_eq_none h with h | ⟨left, rest, hl, h⟩
      · exact (ih hn h).of_suffix htail
      rcases eq_none_or_of_operand_eq_none h with h | ⟨_, _, -, h⟩
      · exact hsecond htail le_rfl hl h
      · cases h
    rw [if_neg hb] at h
    by_cases ha : uc.isAlpha c = true
    · rw [if_pos ha] at h
      by_cases hv : isVariable uc (c :: tail.takeWhile uc.isDecimal) = true
      · rw [dif_pos hv] at h
        cases h
      · rw [dif_neg hv] at h
        cases h
        exact .of_not_isVariable ha hv
    rw [if_neg ha] at h
    cases h
    exact .inr (.inr ⟨c, List.mem_cons_self c tail, Bool.eq_false_iff.2 hc,
      Bool.eq_false_iff.2 ha, List.not_mem_cons_of_ne_of_not_mem ht hb, rfl⟩)

/-- **The parsers' failure messages.** On every string, a failure of `_parse_prefix` carries
`'unexpected end of input'`, `'expected binary operator'`, `"expected ')'"`, `'invalid variable
name: '` with a letter run of the input that is not a variable name, or `'unexpected token: '`
with a character of the input that is no constant, letter, `~` or `(`; a failure of
`_parse_polish_prefix` carries the first, the fourth, or the last with a character that is no
constant, letter, `~`, `&` or `|`. -/
theorem parse_errors (s msg : List Char) :
    (parsePrefix uc s = (none, msg) →
      ParseError uc ['~', '('] ["expected binary operator".toList, "expected ')'".toList] s msg) ∧
    (parsePolishPrefix uc s = (none, msg) → ParseError uc ['~', '&', '|'] [] s msg) :=
  ⟨parsePrefixAux_error (Nat.lt_succ_self _), parsePolishPrefixAux_error (Nat.lt_succ_self _)⟩

/-- Both parsers reject the unclosed `(p&q`, each with its own message. -/
theorem parse_errors_unclosed :
    let s := "(p&q".toList
    let msg := "expected ')'".toList
    let msg' := "unexpected token: (".toList
    parsePrefix .ascii s = (none, msg) ∧
      ParseError .ascii ['~', '('] ["expected binary operator".toList, "expected ')'".toList] s msg ∧
      parsePolishPrefix .ascii s = (none, msg') ∧ ParseError .ascii ['~', '&', '|'] [] s msg' :=
  have h : parsePrefix .ascii "(p&q".toList = (none, "expected ')'".toList) := by decide
  have h' : parsePolishPrefix .ascii "(p&q".toList = (none, "unexpected token: (".toList) := by
    decide
  ⟨h, (parse_errors _ _).1 h, h', (parse_errors _ _).2 h'⟩

end Propositions
