import BslLint.Grammar.Statement
import BslLint.Proofs.Grammar.Parts

/-!
# Nothing is accessed behind a constant

In the grammar of expressions an access stands behind a name, a call or a parenthesis, and never
behind a constant. `accessesConstant` looks for a place where it does, up to the end of the
statement. To find constants it has to know which words are names because they come behind a dot;
beyond that it knows nothing of the grammar. **Scanning passes over whatever is derived**
(`Derives.accessesConstant_append`), so a text in which such a place is found is not an expression
with the end of a statement behind it.
-/

namespace BslLint.Grammar

/-- The kinds of token that a statement ends with, or stops in front of. -/
def endKinds : List Token.Kind :=
  .semicolon :: .keyword .procedure :: .keyword .function :: .directive :: blockEnds

/-- The kinds of token that an access begins with. -/
def accessKinds : List Token.Kind := [.dot, .leftBracket]

/-- Whether some tokens begin with an access. -/
def beginsWithAccess : List Token.Kind → Bool
  | [] => false
  | k :: _ => accessKinds.contains k

/-- Whether an access stands behind a constant before the statement ends. The flag says that a dot
comes before the first token, which makes it a name. -/
def accessesConstant : Bool → List Token.Kind → Bool
  | _, [] => false
  | true, _ :: ks => accessesConstant false ks
  | false, k :: ks =>
    if endKinds.contains k then false
    else if isConstant k && beginsWithAccess ks then true
    else accessesConstant (k == .dot) ks

/-! ### One token at a time -/

/-- The kinds that the scan passes over, whatever comes behind: no constants, dots or ends. -/
def IsPlain (k : Token.Kind) : Prop := k ∉ endKinds ∧ k ≠ .dot ∧ isConstant k = false

instance (k : Token.Kind) : Decidable (IsPlain k) := by
  unfold IsPlain
  infer_instance

variable {k : Token.Kind} {ks ls : List Token.Kind}

theorem accessesConstant_plain (hk : IsPlain k) :
    accessesConstant false (k :: ks) = accessesConstant false ks := by
  obtain ⟨hend, hdot, hconstant⟩ := hk
  rw [accessesConstant, List.contains_eq_mem, decide_eq_false hend, hconstant,
    beq_eq_false_iff_ne.2 hdot]
  rfl

theorem accessesConstant_dot :
    accessesConstant false (.dot :: k :: ks) = accessesConstant false ks := rfl

theorem accessesConstant_constant (hk : isConstant k = true) (hks : beginsWithAccess ks = false) :
    accessesConstant false (k :: ks) = accessesConstant false ks := by
  have hall : ∀ k ∈ .stringLiteral :: constantKinds, k ∉ endKinds ∧ k ≠ .dot := by decide
  obtain ⟨hend, hdot⟩ := hall k (List.mem_cons.2 (isConstant_iff.1 hk))
  rw [accessesConstant, List.contains_eq_mem, decide_eq_false hend, hks, Bool.and_false,
    beq_eq_false_iff_ne.2 hdot]
  rfl

theorem accessesConstant_end (hk : k ∈ endKinds) : accessesConstant false (k :: ks) = false := by
  rw [accessesConstant, List.contains_eq_mem, decide_eq_true hk]
  rfl

/-! ### Parts -/

/-- The parts that may end in a constant. -/
def Part.mayEndInConstant : Part → Bool
  | .expression | .row | .member | .value | .argument | .arguments => true
  | _ => false

theorem isPlain_of_mem_binaryKinds (hk : k ∈ binaryKinds) : IsPlain k := by
  have hall : ∀ k ∈ binaryKinds, IsPlain k := by decide
  exact hall k hk

theorem isPlain_of_mem_unaryKinds (hk : k ∈ unaryKinds) : IsPlain k := by
  have hall : ∀ k ∈ unaryKinds, IsPlain k := by decide
  exact hall k hk

/-- In front of what does not begin with an access stands a row, or arguments, or nothing. -/
theorem Derives.beginsWithAccess_append {p : Part} {w : List Token} {cs : List Tree}
    (h : Derives p w cs) (hp : ∀ k ∈ p.firsts, k ∉ accessKinds)
    (hks : beginsWithAccess ks = false) : beginsWithAccess (w.map (·.kind) ++ ks) = false := by
  obtain ⟨rfl, -⟩ | ⟨t, ts, rfl, ht⟩ := h.begins
  · exact hks
  · show accessKinds.contains t.kind = false
    rw [List.contains_eq_mem]
    exact decide_eq_false (hp _ ht)

theorem accessesConstant_unaries {us : List Token} (hus : ∀ t ∈ us, t.kind ∈ unaryKinds) :
    accessesConstant false (us.map (·.kind) ++ ks) = accessesConstant false ks := by
  induction us with
  | nil => rfl
  | cons u us ih =>
    obtain ⟨hu, hus⟩ := List.forall_mem_cons.1 hus
    rw [List.map_cons, List.cons_append, accessesConstant_plain (isPlain_of_mem_unaryKinds hu),
      ih hus]

/-- Behind a string stands another one, or what does not begin with an access. -/
theorem accessesConstant_strings {ts : List Token} (hts : ∀ t ∈ ts, t.kind = .stringLiteral)
    (hks : beginsWithAccess ks = false) :
    accessesConstant false (ts.map (·.kind) ++ ks) = accessesConstant false ks := by
  induction ts with
  | nil => rfl
  | cons t ts ih =>
    obtain ⟨ht, hts⟩ := List.forall_mem_cons.1 hts
    have hrest : beginsWithAccess (ts.map (·.kind) ++ ks) = false := by
      rcases ts with - | ⟨s, ts⟩
      · exact hks
      · show accessKinds.contains s.kind = false
        rw [hts s List.mem_cons_self]
        rfl
    rw [List.map_cons, List.cons_append, accessesConstant_constant (by rw [ht]; rfl) hrest, ih hts]

/-- **The scan passes over what is derived.** -/
theorem Derives.accessesConstant_append {p : Part} {w : List Token} {cs : List Tree}
    (h : Derives p w cs) : ∀ {ks : List Token.Kind},
      (p.mayEndInConstant = true → beginsWithAccess ks = false) →
      accessesConstant false (w.map (·.kind) ++ ks) = accessesConstant false ks := by
  -- `hks` is used just where a part may end in a constant; all others end in a token that is none.
  induction h with
  | row_nil | typeName_none | call_none | modifiers_nil | argument_none | arguments_nil =>
    exact fun _ ↦ rfl
  | expression _ hothers ihfirst ihothers =>
    intro ks hks
    have hrow := hothers.beginsWithAccess_append (by decide) (hks rfl)
    rw [List.map_append, List.append_assoc, ihfirst fun _ ↦ hrow, ihothers hks]
  | row_cons hop _ hothers ihfirst ihothers =>
    intro ks hks
    have hrow := hothers.beginsWithAccess_append (by decide) (hks rfl)
    rw [List.map_cons, List.cons_append, accessesConstant_plain (isPlain_of_mem_binaryKinds hop),
      List.map_append, List.append_assoc, ihfirst fun _ ↦ hrow, ihothers hks]
  | member hus _ ih =>
    intro ks hks
    rw [List.map_append, List.append_assoc, accessesConstant_unaries hus, ih hks]
  | strings _ hstrings => exact fun hks ↦ accessesConstant_strings hstrings (hks rfl)
  | constant ht =>
    exact fun hks ↦ accessesConstant_constant (isConstant_iff.2 (.inr ht)) (hks rfl)
  | complex _ _ ihhead ihmods =>
    intro ks _
    rw [List.map_append, List.append_assoc, ihhead nofun, ihmods nofun]
  | parens hl hr _ _ ihinside ihmods =>
    intro ks _
    simp only [List.map_cons, List.map_append, List.cons_append, List.append_assoc, hl, hr]
    rw [accessesConstant_plain (by decide), ihinside fun _ ↦ rfl,
      accessesConstant_plain (by decide),
      ihmods nofun]
  | name ht | typeName_some ht =>
    intro ks _
    rw [List.map_singleton, ht]
    exact accessesConstant_plain (by decide)
  | globalCall ht _ ih =>
    intro ks _
    rw [List.map_cons, ht, List.cons_append, accessesConstant_plain (by decide), ih nofun]
  | new ht _ _ ihtype ihcall =>
    intro ks _
    rw [List.map_cons, ht, List.cons_append, accessesConstant_plain (by decide), List.map_append,
      List.append_assoc, ihtype nofun, ihcall nofun]
  | ternary hq hl _ hc _ hc' _ hr ihcondition ihyes ihno =>
    intro ks _
    simp only [List.map_cons, List.map_append, List.map_nil, List.cons_append, List.append_assoc,
      List.nil_append, hq, hl, hc, hc', hr]
    rw [accessesConstant_plain (by decide), accessesConstant_plain (by decide),
      ihcondition fun _ ↦ rfl, accessesConstant_plain (by decide), ihyes fun _ ↦ rfl,
      accessesConstant_plain (by decide), ihno fun _ ↦ rfl, accessesConstant_plain (by decide)]
  | call_some _ ih => exact fun _ ↦ ih nofun
  | modifiers_cons _ _ ihfirst ihothers =>
    intro ks _
    rw [List.map_append, List.append_assoc, ihfirst nofun, ihothers nofun]
  | property hd _ =>
    intro ks _
    rw [List.map_cons, hd]
    rfl
  | methodCall hd _ _ ih =>
    intro ks _
    rw [List.map_cons, hd, List.map_cons, List.cons_append, List.cons_append, accessesConstant_dot,
      ih nofun]
  | index hl _ hr ih =>
    intro ks _
    simp only [List.map_cons, List.map_append, List.map_nil, List.cons_append, List.append_assoc,
      List.nil_append, hl, hr]
    rw [accessesConstant_plain (by decide), ih fun _ ↦ rfl, accessesConstant_plain (by decide)]
  | call hl _ hothers hr ihfirst ihothers =>
    intro ks _
    have hrest : beginsWithAccess (_ ++ .rightParen :: ks) = false :=
      hothers.beginsWithAccess_append (by decide) rfl
    simp only [List.map_cons, List.map_append, List.map_nil, List.cons_append, List.append_assoc,
      List.nil_append, hl, hr]
    rw [accessesConstant_plain (by decide), ihfirst fun _ ↦ hrest, ihothers fun _ ↦ rfl,
      accessesConstant_plain (by decide)]
  | argument_some _ ih => exact fun hks ↦ ih hks
  | arguments_cons hc _ hothers ihfirst ihothers =>
    intro ks hks
    have hrest := hothers.beginsWithAccess_append (by decide) (hks rfl)
    rw [List.map_cons, hc, List.cons_append, accessesConstant_plain (by decide), List.map_append,
      List.append_assoc, ihfirst fun _ ↦ hrest, ihothers hks]

end BslLint.Grammar
