import BslLint.Proofs.Expression.Printing
import BslLint.Proofs.Expression.Shape
import BslLint.Proofs.Grammar.Constants

/-!
# A written access to a literal is no expression

The parentheses around a literal that is accessed are lost when the expression is written, so its
tokens are a constant with an access behind it. `Grammar.accessesConstant` finds that place wherever
in the expression it is (`Normal.scanned`): up to there the scan meets no end of a statement, and it
is never in the middle of an access when it comes to the next part (`Scanned`).
-/

namespace BslLint

namespace Expr

open Grammar Lexeme

/-! ### Kinds of lexemes -/

/-- The kinds of the tokens among some lexemes. -/
def kindsOf (ls : List Lexeme) : List Token.Kind := (ls.filterMap Lexeme.sign?).map (·.1)

theorem kindsOf_append (ls ms : List Lexeme) : kindsOf (ls ++ ms) = kindsOf ls ++ kindsOf ms := by
  rw [kindsOf, List.filterMap_append, List.map_append]
  rfl

theorem kindsOf_token (k : Token.Kind) (text : List Char) (ls : List Lexeme) :
    kindsOf (⟨.token k, text⟩ :: ls) = k :: kindsOf ls := rfl

theorem kindsOf_sign (c : Char) (k : Token.Kind) (ls : List Lexeme) :
    kindsOf (ofSign c k :: ls) = k :: kindsOf ls := rfl

theorem kindsOf_operator (op : Operator) (ls : List Lexeme) :
    kindsOf (ofOperator op :: ls) = op.tokenKind :: kindsOf ls := rfl

theorem kindsOf_space (ls : List Lexeme) : kindsOf (space :: ls) = kindsOf ls := rfl

variable {d : Document}

/-- A word is one token. -/
theorem kindsOf_word {r : TokenRange} {k : Token.Kind} (h : d.IsWord r k) :
    kindsOf (lexemes (d.rangeText r).toList) = [k] := by
  rw [h.cuts.lexemes_eq]
  rfl

/-- The tokens of a literal are constants, and there are some. -/
theorem kindsOf_literal {r : TokenRange} (h : d.IsLiteral r) :
    kindsOf (lexemes (d.rangeText r).toList) ≠ [] ∧
      ∀ k ∈ kindsOf (lexemes (d.rangeText r).toList), isConstant k = true := by
  refine ⟨?_, fun k hk ↦ ?_⟩
  · rcases hlexemes : lexemes (d.rangeText r).toList with - | ⟨⟨kind, text⟩, ls⟩
    · exact absurd hlexemes h.framed.ne_nil
    · obtain ⟨k, rfl⟩ := h.framed.first _ (by rw [hlexemes, List.head?_cons])
      rw [kindsOf_token]
      exact List.cons_ne_nil _ _
  · obtain ⟨k', hk', hkinds⟩ | hstrings := h.kinds
    · rw [kindsOf, show (lexemes (d.rangeText r).toList).filterMap Lexeme.sign? =
        Document.signs (d.rangeText r).toList from rfl, hkinds, List.mem_singleton] at hk
      exact isConstant_iff.2 (.inr (hk ▸ hk'))
    · obtain ⟨s, hs, rfl⟩ := List.mem_map.1 hk
      exact isConstant_iff.2 (.inl (hstrings s hs))

/-! ### What the scan finds -/

/-- Whatever comes behind, the scan finds there what it finds without the tokens; and if the
condition holds it finds an access in the tokens. -/
structure Scanned (ks : List Token.Kind) (p : Prop) : Prop where
  /-- What is found behind the tokens is found still. -/
  settled : ∀ ls, accessesConstant false ls = true → accessesConstant false (ks ++ ls) = true
  /-- There is something to be found. -/
  finds : p → ∀ ls, accessesConstant false (ks ++ ls) = true

variable {k : Token.Kind} {ks ls : List Token.Kind} {p q : Prop}

theorem Scanned.mono (h : Scanned ks p) (hqp : q → p) : Scanned ks q :=
  ⟨h.settled, fun hq ↦ h.finds (hqp hq)⟩

theorem scanned_nil : Scanned [] False := ⟨fun _ h ↦ h, nofun⟩

/-- What is scanned in two parts is scanned as a whole, and an access in either is found. -/
theorem Scanned.append (hks : Scanned ks p) (hls : Scanned ls q) : Scanned (ks ++ ls) (p ∨ q) := by
  constructor
  · intro ms h
    rw [List.append_assoc]
    exact hks.settled _ (hls.settled _ h)
  · intro hpq ms
    rw [List.append_assoc]
    rcases hpq with hp | hq
    · exact hks.finds hp _
    · exact hks.settled _ (hls.finds hq _)

/-- Tokens that are neither ends nor dots may come in front, constants among them. -/
theorem scanned_singleton (hend : k ∉ endKinds) (hdot : k ≠ .dot) : Scanned [k] False := by
  refine ⟨fun ls h ↦ ?_, nofun⟩
  show accessesConstant false (k :: ls) = true
  rw [accessesConstant, List.contains_eq_mem, decide_eq_false hend, beq_eq_false_iff_ne.2 hdot]
  by_cases hconstant : (isConstant k && beginsWithAccess ls) = true
  · rw [if_pos hconstant]
    rfl
  · rw [if_neg hconstant]
    exact h

/-- A token that ends no expression and is no dot may come in front, -/
theorem Scanned.cons (hks : Scanned ks p) (hend : k ∉ endKinds := by decide)
    (hdot : k ≠ .dot := by decide) : Scanned (k :: ks) p :=
  ((scanned_singleton hend hdot).append hks).mono .inr

/-- or behind, -/
theorem Scanned.concat (hks : Scanned ks p) (hend : k ∉ endKinds := by decide)
    (hdot : k ≠ .dot := by decide) : Scanned (ks ++ [k]) p :=
  (hks.append (scanned_singleton hend hdot)).mono .inl

/-- and a dot with what follows it in front, where nothing stands that could be accessed. -/
theorem Scanned.cons_dot (hks : Scanned ks p) (k : Token.Kind) : Scanned (.dot :: k :: ks) p :=
  ⟨hks.settled, hks.finds⟩

/-- Constants alone access nothing. -/
theorem scanned_constants (h : ∀ k ∈ ks, isConstant k = true) : Scanned ks False := by
  have hall : ∀ k ∈ .stringLiteral :: constantKinds, k ∉ endKinds ∧ k ≠ .dot := by decide
  induction ks with
  | nil => exact scanned_nil
  | cons k ks ih =>
    obtain ⟨hk, hks⟩ := List.forall_mem_cons.1 h
    obtain ⟨hend, hdot⟩ := hall k (List.mem_cons.2 (isConstant_iff.1 hk))
    exact (ih hks).cons hend hdot

/-- An access behind constants is found. -/
theorem accessesConstant_constants (hne : ks ≠ []) (h : ∀ k ∈ ks, isConstant k = true)
    (hls : beginsWithAccess ls = true) : accessesConstant false (ks ++ ls) = true := by
  have hall : ∀ k ∈ .stringLiteral :: constantKinds, k ∉ endKinds := by decide
  obtain hnil | ⟨init, k, rfl⟩ := List.eq_nil_or_concat' ks
  · exact absurd hnil hne
  · have hk : isConstant k = true := h k (by simp)
    have hinit := scanned_constants fun k' hk' ↦ h k' (List.mem_append_left _ hk')
    rw [List.append_assoc]
    refine hinit.settled _ ?_
    show accessesConstant false (k :: ls) = true
    rw [accessesConstant, List.contains_eq_mem,
      decide_eq_false (hall k (List.mem_cons.2 (isConstant_iff.1 hk))), hk, hls]
    rfl

/-! ### Expressions -/

/-- Somewhere in the expression a literal is accessed. -/
def HasLiteralAccess (x : Expr) : Prop := ∃ y ∈ x.parts, y.isLiteralAccess = true

section

variable {x y z : Expr} {args : List Expr} {o : Origin}

theorem hasLiteralAccess_unary {op : Operator} :
    HasLiteralAccess (.unary op x o) ↔ HasLiteralAccess x := by
  simp [HasLiteralAccess, parts, isLiteralAccess]

/-- An operator between operands accesses neither, -/
theorem hasLiteralAccess_operation {k : Token.Kind} {op : Operator}
    (hop : Operator.binary? k = some op) :
    HasLiteralAccess (.binary op x y o) ↔ HasLiteralAccess x ∨ HasLiteralAccess y := by
  have hplain : isLiteralAccess (.binary op x y o) = false := by
    unfold Operator.binary? at hop
    split at hop <;> cases hop <;> rfl
  simp [HasLiteralAccess, parts, hplain, or_and_right, exists_or]

/-- a dot accesses what stands before it, -/
theorem hasLiteralAccess_dereference : HasLiteralAccess (.binary .dereference x y o) ↔
    x.isLiteral = true ∨ HasLiteralAccess x ∨ HasLiteralAccess y := by
  simp [HasLiteralAccess, parts, isLiteralAccess, or_and_right, exists_or]

/-- and so does an index. -/
theorem hasLiteralAccess_index : HasLiteralAccess (.binary .indexAccess x y o) ↔
    x.isLiteral = true ∨ HasLiteralAccess x ∨ HasLiteralAccess y := by
  simp [HasLiteralAccess, parts, isLiteralAccess, or_and_right, exists_or]

theorem hasLiteralAccess_ternary : HasLiteralAccess (.ternary x y z o) ↔
    HasLiteralAccess x ∨ HasLiteralAccess y ∨ HasLiteralAccess z := by
  simp [HasLiteralAccess, parts, isLiteralAccess, or_and_right, exists_or]

/-- In a call there are only the arguments to look into. -/
theorem hasLiteralAccess_call {kind : CallKind} {symbol : Symbol} {s : Origin} :
    HasLiteralAccess (.call kind (.terminal symbol s) args o) ↔
      ∃ a ∈ args, HasLiteralAccess a := by
  simp only [HasLiteralAccess, parts, List.mem_cons, List.mem_append, mem_partsList]
  constructor
  · rintro ⟨y, rfl | (rfl | hnil) | ⟨a, ha, hy⟩, haccess⟩
    · cases haccess
    · cases haccess
    · cases hnil
    · exact ⟨a, ha, y, hy, haccess⟩
  · rintro ⟨a, ha, y, hy, haccess⟩
    exact ⟨y, .inr (.inr ⟨a, ha, hy⟩), haccess⟩

theorem not_hasLiteralAccess_terminal {symbol : Symbol} :
    ¬HasLiteralAccess (.terminal symbol o) := by
  simp [HasLiteralAccess, parts, isLiteralAccess]

/-- A literal is accessed, or there is an access in it or behind it. -/
theorem Normal.scanned_access (h : Normal d x) (hx : Scanned (kindsOf (x.written d)) p)
    (hls : Scanned ls q) (hbegins : beginsWithAccess ls = true) :
    Scanned (kindsOf (x.written d) ++ ls) (x.isLiteral = true ∨ p ∨ q) := by
  refine ⟨(hx.append hls).settled, ?_⟩
  rintro (hliteral | hpq) ms
  · cases h with
    | @literal s ho =>
      obtain ⟨hne, hconstants⟩ := kindsOf_literal ho
      have haccess : beginsWithAccess (ls ++ ms) = true := by
        rcases ls with - | ⟨k, ls⟩
        · exact nomatch hbegins
        · exact hbegins
      rw [List.append_assoc]
      exact accessesConstant_constants hne hconstants haccess
    | _ => exact nomatch hliteral
  · exact (hx.append hls).finds hpq ms

/-- Arguments behind the first are scanned with their commas, -/
theorem scanned_rest (h : ∀ a ∈ args, Scanned (kindsOf (a.written d)) (HasLiteralAccess a)) :
    Scanned (kindsOf (writtenRest d args)) (∃ a ∈ args, HasLiteralAccess a) := by
  induction args with
  | nil => exact scanned_nil.mono (by simp)
  | cons a as ih =>
    obtain ⟨ha, has⟩ := List.forall_mem_cons.1 h
    rw [writtenRest, kindsOf_sign, kindsOf_space, kindsOf_append]
    exact ((ha.append (ih has)).mono (by simp)).cons

/-- and all of them with their parentheses. -/
theorem scanned_arguments (hlist : AreListed d args) (h : ∀ a ∈ args, a.isEmpty = false →
      Scanned (kindsOf (a.written d)) (HasLiteralAccess a)) :
    Scanned (kindsOf (ofSign '(' .leftParen :: (writtenList d args ++ [ofSign ')' .rightParen])))
      (∃ a ∈ args, HasLiteralAccess a) := by
  have hall : ∀ a ∈ args, Scanned (kindsOf (a.written d)) (HasLiteralAccess a) := by
    intro a ha
    cases hempty : a.isEmpty with
    | false => exact h a ha hempty
    -- An argument left out is written with no tokens, and has no access in it.
    | true =>
      rw [((hlist.isBlank a ha hempty).written_eq hempty).1]
      refine scanned_nil.mono ?_
      unfold isEmpty at hempty
      split at hempty
      · exact not_hasLiteralAccess_terminal
      · exact nomatch hempty
  rw [kindsOf_sign, kindsOf_append]
  refine Scanned.cons (.concat ?_)
  cases args with
  | nil => exact scanned_nil.mono (by simp)
  | cons a as =>
    obtain ⟨ha, has⟩ := List.forall_mem_cons.1 hall
    rw [writtenList, kindsOf_append]
    exact (ha.append (scanned_rest has)).mono (by simp)

end

theorem kindsOf_behindUnary (op : Operator) (ls : List Lexeme) :
    kindsOf (behindUnary op ++ ls) = kindsOf ls := by
  unfold behindUnary
  split <;> rfl

/-- No operation is written with a dot. -/
theorem tokenKind_notMem {op : Operator}
    (h : op.isUnary = true ∨ ∃ k, Operator.binary? k = some op) :
    op.tokenKind ∉ endKinds ∧ op.tokenKind ≠ .dot := by
  obtain h | ⟨k, h⟩ := h
  · cases op <;> first | decide | exact nomatch h
  · rw [Operator.tokenKind_of_binary? h]
    unfold Operator.binary? at h
    split at h <;> first | decide | exact nomatch h

/-- **An access to a literal is found in what the expression is written with**, and nothing before
it keeps the scan from getting there. -/
theorem Normal.scanned {x : Expr} (h : Normal d x) :
    Scanned (kindsOf (x.written d)) (HasLiteralAccess x) := by
  -- Signs that neither end a constant nor begin an access let the scan go on with what is behind.
  induction h with
  | literal ho =>
    exact (scanned_constants (kindsOf_literal ho).2).mono not_hasLiteralAccess_terminal
  | name hs =>
    rw [written, kindsOf_word hs]
    exact scanned_nil.cons.mono not_hasLiteralAccess_terminal
  | unary hop _ ih =>
    obtain ⟨hend, hdot⟩ := tokenKind_notMem (.inl hop)
    rw [written, kindsOf_sign, kindsOf_operator, kindsOf_behindUnary, kindsOf_append]
    exact ((ih.concat.cons hend hdot).cons).mono hasLiteralAccess_unary.1
  | operation hop _ _ ihx ihy =>
    obtain ⟨hend, hdot⟩ := tokenKind_notMem (.inr ⟨_, hop⟩)
    rw [written_operation hop, kindsOf_sign, kindsOf_append, kindsOf_space, kindsOf_operator,
      kindsOf_space, kindsOf_append]
    exact (ihx.append (ihy.concat.cons hend hdot)).cons.mono (hasLiteralAccess_operation hop).1
  | @property x k o s hx _ hs ih =>
    rw [written, written, kindsOf_append, kindsOf_sign, kindsOf_word hs]
    refine (hx.scanned_access ih (scanned_nil.cons_dot k) rfl).mono fun haccess ↦ ?_
    exact (hasLiteralAccess_dereference.1 haccess).imp_right
      (.imp_right fun hname ↦ not_hasLiteralAccess_terminal hname)
  | @method x k args o o' s hx _ hs hlist _ ih ihargs =>
    have hargs := (scanned_arguments hlist ihargs).cons_dot k
    rw [written, written, written, kindsOf_append, kindsOf_sign, kindsOf_append, kindsOf_word hs]
    refine (hx.scanned_access ih hargs rfl).mono fun haccess ↦ ?_
    exact (hasLiteralAccess_dereference.1 haccess).imp_right (.imp_right hasLiteralAccess_call.1)
  | @index x y o hx _ ihx ihy =>
    rw [written, kindsOf_append, kindsOf_sign, kindsOf_append]
    exact (hx.scanned_access ihx ihy.concat.cons rfl).mono hasLiteralAccess_index.1
  | ternary _ _ _ ihx ihy ihz =>
    rw [written, kindsOf_sign, kindsOf_sign, kindsOf_append, kindsOf_sign, kindsOf_space,
      kindsOf_append, kindsOf_sign, kindsOf_space, kindsOf_append]
    exact (ihx.append (ihy.append ihz.concat.cons).cons).cons.cons.mono hasLiteralAccess_ternary.1
  | call hs hlist _ ihargs =>
    rw [written, written, kindsOf_append, kindsOf_word hs]
    exact (scanned_arguments hlist ihargs).cons.mono hasLiteralAccess_call.1
  | new htoken hs hlist _ ihargs =>
    rw [written, origin, if_neg (by simp [htoken]), List.cons_append, written,
      newWord, kindsOf_token, kindsOf_space, kindsOf_append, kindsOf_word hs]
    exact ((scanned_arguments hlist ihargs).cons.cons).mono hasLiteralAccess_call.1
  | newUntyped htoken _ hlist _ ihargs =>
    rw [written, origin, if_pos htoken, newWord, kindsOf_token, List.nil_append]
    exact (scanned_arguments hlist ihargs).cons.mono hasLiteralAccess_call.1

end Expr

end BslLint
