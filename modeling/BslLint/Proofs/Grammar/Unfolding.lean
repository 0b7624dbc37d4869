import BslLint.Proofs.Grammar.Progress

/-!
# The parsers for expressions and for blocks are their own inner parsers

`Parser.fix` counts levels, and no proof should have to. It suffices that a parser uses its inner
parser behind a token of its own: then what it does at a list of tokens depends on the inner parser
at **shorter** lists only, the number of levels does not matter once it reaches the number of
tokens, and the parser satisfies its equation, `fix_eq`.

Arguments of a call stand behind a parenthesis that may be missing, so `doCall` alone looks at the
inner parser on lists that are not shorter. Everywhere it is used a name has been read before. In
statements it is the body of a loop that may be without its first word, behind a word of its own.
-/

namespace BslLint

namespace Parser

/-- Two parsers do the same on all lists of fewer than `n` tokens. -/
def AgreeBelow (n : Nat) (p q : Parser) : Prop := ∀ ts, ts.length < n → p ts = q ts

namespace AgreeBelow

variable {n : Nat} {p q p' q' : Parser}

theorem refl (n : Nat) (p : Parser) : AgreeBelow n p p := fun _ _ ↦ rfl

/-- To agree on lists that are shorter still is less. -/
theorem mono {m : Nat} (hmn : m ≤ n) (h : AgreeBelow n p q) : AgreeBelow m p q :=
  fun ts hts ↦ h ts (Nat.lt_of_lt_of_le hts hmn)

theorem seq (hp : AgreeBelow n p p') (hq : AgreeBelow n q q') :
    AgreeBelow n (p ++ q) (p' ++ q') := by
  intro ts hts
  show (p ts).andThen (q (p ts).rest) = (p' ts).andThen (q' (p' ts).rest)
  rw [hp ts hts, hq _ (Nat.lt_of_le_of_lt (p' ts).length_rest_le hts)]

theorem node (h : AgreeBelow n p q) (k : NodeKind) :
    AgreeBelow n (Parser.node k p) (Parser.node k q) := fun ts hts ↦
  congrArg (Step.wrap k) (h ts hts)

theorem ifAhead {ahead : List Token → Bool} (hp : AgreeBelow n p p') (hq : AgreeBelow n q q') :
    AgreeBelow n (Parser.ifAhead ahead p q) (Parser.ifAhead ahead p' q') := by
  intro ts hts
  rw [Parser.ifAhead, Parser.ifAhead, hp ts hts, hq ts hts]

/-- Repeated parsers need to agree only where a round begins. -/
theorem many {ahead : List Token → Bool}
    (h : ∀ ts, ts.length < n → ahead ts = true → p ts = q ts) :
    AgreeBelow n (Parser.many ahead p) (Parser.many ahead q) := by
  intro ts
  refine many_induction (motive := fun ts s ↦ ts.length < n → s = Parser.many ahead q ts)
    (fun ts hstop _ ↦ (many_of_stop hstop).symm) (fun ts hahead hstall hts ↦ ?_)
    (fun ts hahead hgo ih hts ↦ ?_) ts
  · rw [h ts hts hahead] at hstall ⊢
    exact (many_of_stall hahead hstall).symm
  · rw [ih (Nat.lt_trans hgo hts)]
    rw [h ts hts hahead] at hgo ⊢
    exact (many_of_go hahead hgo).symm

theorem commaSeparated (h : AgreeBelow n p q) :
    AgreeBelow n (Parser.commaSeparated p) (Parser.commaSeparated q) :=
  h.seq (many fun ts hts _ ↦ (refl n one).seq h ts hts)

end AgreeBelow

/-- Two parsers do the same on one list of tokens. -/
def AgreeAt (ts : List Token) (p q : Parser) : Prop := p ts = q ts

namespace AgreeAt

variable {ts : List Token} {p q p' q' : Parser}

theorem node (h : AgreeAt ts p q) (k : NodeKind) : AgreeAt ts (Parser.node k p) (Parser.node k q) :=
  congrArg (Step.wrap k) h

theorem select {choice choice' : Option Token.Kind → Parser}
    (h : ∀ k, peek ts = k → AgreeAt ts (choice k) (choice' k)) :
    AgreeAt ts (Parser.select choice) (Parser.select choice') := h _ rfl

theorem ifAhead {ahead : List Token → Bool} (hp : AgreeAt ts p p') (hq : AgreeAt ts q q') :
    AgreeAt ts (Parser.ifAhead ahead p q) (Parser.ifAhead ahead p' q') := by
  show (if ahead ts then p ts else q ts) = if ahead ts then p' ts else q' ts
  rw [hp, hq]

/-- What comes second is given a list that is no longer. -/
theorem seq (hp : AgreeAt ts p p') (hq : AgreeBelow (ts.length + 1) q q') :
    AgreeAt ts (p ++ q) (p' ++ q') := by
  show (p ts).andThen (q (p ts).rest) = (p' ts).andThen (q' (p' ts).rest)
  rw [show p ts = p' ts from hp, hq _ (Nat.lt_succ_of_le (p' ts).length_rest_le)]

/-- Behind a token it is given a list that is shorter. -/
theorem seq_of_progress (hp : AgreeAt ts p p') (hprogress : Progress p' ts)
    (hq : AgreeBelow ts.length q q') : AgreeAt ts (p ++ q) (p' ++ q') := by
  show (p ts).andThen (q (p ts).rest) = (p' ts).andThen (q' (p' ts).rest)
  rw [show p ts = p' ts from hp, hq _ hprogress]

end AgreeAt

/-! ### The equation -/

variable {f : Parser → Parser}
  (hf : ∀ (p q : Parser) (ts : List Token), AgreeBelow ts.length p q → f p ts = f q ts)

include hf

/-- Beyond the number of tokens more levels change nothing. -/
theorem nested_eq {d d' : Nat} {ts : List Token} (hd : ts.length ≤ d) (hd' : ts.length ≤ d') :
    nested f d ts = nested f d' ts := by
  induction d generalizing d' ts with
  | zero =>
    obtain rfl := List.length_eq_zero_iff.1 (Nat.le_zero.1 hd)
    cases d' with
    | zero => rfl
    | succ d' => exact hf _ _ [] fun us hus ↦ absurd hus (Nat.not_lt_zero _)
  | succ d ih =>
    cases d' with
    | zero =>
      obtain rfl := List.length_eq_zero_iff.1 (Nat.le_zero.1 hd')
      exact hf _ _ [] fun us hus ↦ absurd hus (Nat.not_lt_zero _)
    | succ d' => exact hf _ _ ts fun us hus ↦ ih (by omega) (by omega)

/-- **A parser that uses itself solves its equation**: it does what its rule says, with itself
inside. -/
theorem fix_eq (ts : List Token) : fix f ts = f (fix f) ts := by
  calc fix f ts = nested f (ts.length + 1) ts := nested_eq hf (Nat.le_refl _) (Nat.le_succ _)
    _ = f (fix f) ts := hf _ _ ts fun us hus ↦ nested_eq hf (Nat.le_of_lt hus) (Nat.le_refl _)

end Parser

namespace Grammar

open BslLint.Parser

variable {n : Nat} {p q : Parser}

/-! ### Rules that use expressions -/

theorem agreeBelow_doCall (h : AgreeBelow n p q) : AgreeBelow n (doCall p) (doCall q) :=
  (((AgreeBelow.refl n _).seq
    ((((h.ifAhead (.refl n _)).node _).commaSeparated).node _)).seq (.refl n _)).node _

section

variable {ts : List Token} (h : AgreeBelow ts.length p q)

include h

/-- Behind the dot there is less left. -/
theorem agreeAt_memberAccess (hts : ts ≠ []) : AgreeAt ts (memberAccess p) (memberAccess q) := by
  have hcall : AgreeAt ts (one ++ node .methodCall (node .methodName one ++ doCall p))
      (one ++ node .methodCall (node .methodName one ++ doCall q)) :=
    .seq_of_progress rfl (progress_one hts)
      (((AgreeBelow.refl _ _).seq (agreeBelow_doCall h)).node _)
  refine AgreeAt.node ?_ _
  simp only [AgreeAt]
  split
  · exact hcall.node _
  · rfl

/-- Behind the bracket the list is shorter, so agreement below it is enough. -/
theorem agreeAt_indexAccess (hts : ts ≠ []) : AgreeAt ts (indexAccess p) (indexAccess q) :=
  (((AgreeAt.seq_of_progress rfl (progress_one hts) h).seq (.refl _ _)).node _).node _

omit h in
/-- Where a token is ahead, there is one. -/
theorem ne_nil_of_isAtAny {kinds : List Token.Kind} {ts : List Token}
    (h : isAtAny kinds ts = true) : ts ≠ [] := by
  rintro rfl
  exact nomatch h

/-- Accesses stand behind a dot or a bracket, so they look at shorter lists wherever they begin. -/
theorem agreeBelow_modifiers : AgreeBelow (ts.length + 1) (modifiers p) (modifiers q) := by
  refine AgreeBelow.many fun us hus hahead ↦ ?_
  have hle : AgreeBelow us.length p q := h.mono (Nat.le_of_lt_succ hus)
  have hne : us ≠ [] := ne_nil_of_isAtAny hahead
  exact AgreeAt.ifAhead (agreeAt_memberAccess hle hne) (agreeAt_indexAccess hle hne)

theorem agreeAt_identifierHead (hts : ts ≠ []) :
    AgreeAt ts (identifierHead p) (identifierHead q) :=
  .ifAhead ((AgreeAt.seq_of_progress rfl ((progress_one hts).node _) (agreeBelow_doCall h)).node _)
    rfl

theorem agreeAt_newExpression (hts : ts ≠ []) : AgreeAt ts (newExpression p) (newExpression q) :=
  (AgreeAt.seq_of_progress rfl ((progress_one hts).seq _)
    ((agreeBelow_doCall h).ifAhead (.refl _ _))).node _

/-- Behind the sign of a choice there is less left, and so it goes on. -/
theorem agreeAt_ternaryOperator (hts : ts ≠ []) :
    AgreeAt ts (ternaryOperator p) (ternaryOperator q) := by
  have hone : Progress one ts := progress_one hts
  have hcondition : AgreeAt ts (one ++ expect .leftParen ++ p ++ expect .comma)
      (one ++ expect .leftParen ++ q ++ expect .comma) :=
    (AgreeAt.seq_of_progress rfl (hone.seq _) h).seq (.refl _ _)
  have hyes := (hcondition.seq_of_progress (((hone.seq _).seq _).seq _) h).seq
    (.refl _ (expect .comma))
  have hno := hyes.seq_of_progress (((((hone.seq _).seq _).seq _).seq _).seq _) h
  exact (hno.seq (.refl _ _)).node _

/-- A value begins with a token, whatever it is. -/
theorem agreeAt_complexIdentifier (hts : ts ≠ []) :
    AgreeAt ts (complexIdentifier p) (complexIdentifier q) := by
  refine ((AgreeAt.select fun k _ ↦ ?_).seq (agreeBelow_modifiers h)).node _
  split
  · exact agreeAt_newExpression h hts
  · exact agreeAt_ternaryOperator h hts
  · exact agreeAt_identifierHead h hts

end

/-- What a member does depends on the inner parser at shorter lists only: with each kind of token
that it can begin with, the token comes first. -/
theorem agreeBelow_member (h : AgreeBelow n p q) : AgreeBelow (n + 1) (member p) (member q) := by
  refine ((AgreeBelow.refl _ _).seq fun ts hts ↦ AgreeAt.select fun k hk ↦ ?_).node _
  have hle : AgreeBelow ts.length p q := h.mono (Nat.le_of_lt_succ hts)
  have hne : k ≠ none → ts ≠ [] := by
    rintro hsome rfl
    exact hsome hk.symm
  split
  · exact ((AgreeAt.seq_of_progress rfl (progress_one (hne nofun)) hle).seq (.refl _ _)).seq
      (agreeBelow_modifiers hle)
  · exact agreeAt_complexIdentifier hle (hne nofun)
  · exact agreeAt_complexIdentifier hle (hne nofun)
  · exact agreeAt_complexIdentifier hle (hne nofun)
  · rfl
  · rfl

/-- A row looks at one token more than what it holds. -/
theorem agreeBelow_members (h : AgreeBelow n p q) : AgreeBelow (n + 1) (members p) (members q) :=
  ((agreeBelow_member h).seq
    (.many fun ts hts _ ↦ (AgreeBelow.refl _ operation).seq (agreeBelow_member h) ts hts)).node _

/-- **The parser for expressions is a row of members whose inner parser is itself.** -/
theorem expression_eq (ts : List Token) : expression ts = members expression ts :=
  fix_eq (fun _ _ ts h ↦ agreeBelow_members h ts (Nat.lt_succ_self _)) ts

/-! ### Rules that use blocks -/

section

variable {ts : List Token} (h : AgreeBelow ts.length p q)

include h

theorem agreeAt_conditionalBranch (hts : ts ≠ []) (k : NodeKind) :
    AgreeAt ts (conditionalBranch p k) (conditionalBranch q k) :=
  (AgreeAt.seq_of_progress rfl (((progress_one hts).seq _).seq _) h).node _

/-- A branch begins with its word, and so does each of those behind it. -/
theorem agreeAt_ifStatement (hts : ts ≠ []) : AgreeAt ts (ifStatement p) (ifStatement q) := by
  have hle {us : List Token} (hus : us.length < ts.length + 1) : AgreeBelow us.length p q :=
    h.mono (Nat.le_of_lt_succ hus)
  have hne {word : Keyword} {us : List Token} (hat : isAt (.keyword word) us = true) : us ≠ [] := by
    rintro rfl
    exact nomatch hat
  -- Each branch begins with its word, so what is read inside of it is shorter.
  have hothers : AgreeBelow (ts.length + 1)
      (many (isAt (.keyword .elsIf)) (conditionalBranch p .elsifBranch))
      (many (isAt (.keyword .elsIf)) (conditionalBranch q .elsifBranch)) :=
    .many fun us hus hat ↦ agreeAt_conditionalBranch (hle hus) (hne hat) _
  have helse : AgreeBelow (ts.length + 1)
      (when (isAt (.keyword .else_)) (node .elseBranch (one ++ p)))
      (when (isAt (.keyword .else_)) (node .elseBranch (one ++ q))) := by
    intro us hus
    cases hat : isAt (.keyword .else_) us with
    | true =>
      rw [when, when, ifAhead_pos hat, ifAhead_pos hat]
      exact (AgreeAt.seq_of_progress rfl (progress_one (hne hat)) (hle hus)).node _
    | false => rw [when, when, ifAhead_neg hat, ifAhead_neg hat]
  exact ((((agreeAt_conditionalBranch h hts _).seq hothers).seq helse).seq (.refl _ _)).node _

theorem agreeBelow_loopBody : AgreeBelow ts.length (loopBody p) (loopBody q) :=
  ((AgreeBelow.refl _ _).seq h).seq (.refl _ _)

/-- Behind its first word a statement sees a shorter list. -/
theorem agreeAt_whileStatement (hts : ts ≠ []) :
    AgreeAt ts (whileStatement p) (whileStatement q) :=
  (AgreeAt.seq_of_progress rfl ((progress_one hts).seq _) (agreeBelow_loopBody h)).node _

/-- Between its words a loop has expressions, which do not use the inner parser. -/
theorem agreeAt_forStatement (hts : ts ≠ []) : AgreeAt ts (forStatement p) (forStatement q) := by
  have hhead := ((((((progress_one hts).seq (expectName .loopVariable)).seq (expect .equal)).seq
    expression).seq (expect (.keyword .to_))).seq expression)
  exact (AgreeAt.seq_of_progress rfl hhead (agreeBelow_loopBody h)).node _

theorem agreeAt_forEachStatement (hts : ts ≠ []) :
    AgreeAt ts (forEachStatement p) (forEachStatement q) := by
  have hhead := ((((progress_one hts).seq one).seq (expectName .loopVariable)).seq
    (expect (.keyword .in_))).seq expression
  exact (AgreeAt.seq_of_progress rfl hhead (agreeBelow_loopBody h)).node _

/-- Both blocks stand behind a word. -/
theorem agreeAt_tryStatement (hts : ts ≠ []) : AgreeAt ts (tryStatement p) (tryStatement q) := by
  have hone : Progress one ts := progress_one hts
  have htry : AgreeAt ts (one ++ node .tryCodeBlock p ++ expect (.keyword .except))
      (one ++ node .tryCodeBlock q ++ expect (.keyword .except)) :=
    (AgreeAt.seq_of_progress rfl hone (h.node _)).seq (.refl _ _)
  exact ((htry.seq_of_progress ((hone.seq _).seq _) (h.node _)).seq (.refl _ _)).node _

end

/-- What a statement does depends on the inner parser at shorter lists only: a statement that holds
others begins with a word of its own. -/
theorem agreeBelow_statementBody (h : AgreeBelow n p q) :
    AgreeBelow (n + 1) (statementBody p) (statementBody q) := by
  intro ts hts
  have hle : AgreeBelow ts.length p q := h.mono (Nat.le_of_lt_succ hts)
  refine AgreeAt.select fun k hk ↦ ?_
  have hne : k ≠ none → ts ≠ [] := by
    rintro hsome rfl
    exact hsome hk.symm
  split
  · exact (agreeAt_ifStatement hle (hne nofun)).seq (.refl _ _)
  · exact (agreeAt_whileStatement hle (hne nofun)).seq (.refl _ _)
  · exact (AgreeAt.ifAhead (agreeAt_forEachStatement hle (hne nofun))
      (agreeAt_forStatement hle (hne nofun))).seq (.refl _ _)
  · exact (agreeAt_tryStatement hle (hne nofun)).seq (.refl _ _)
  all_goals rfl

/-- Statements look at one token more than the blocks in them. -/
theorem agreeBelow_statements (h : AgreeBelow n p q) :
    AgreeBelow (n + 1) (statements p) (statements q) := by
  have hbody : AgreeBelow (n + 1) (statementBody p) (statementBody q) := agreeBelow_statementBody h
  have hlabelled : AgreeBelow (n + 1)
      (label true ++ ifAhead atStatementEnd (eat .semicolon) (statementBody p))
      (label true ++ ifAhead atStatementEnd (eat .semicolon) (statementBody q)) :=
    (AgreeBelow.refl _ _).seq (.ifAhead (.refl _ _) hbody)
  exact (AgreeBelow.many fun ts hts _ ↦ (hlabelled.ifAhead hbody).node _ ts hts).node _

/-- **The parser for blocks is a row of statements whose inner parser is itself.** -/
theorem block_eq (ts : List Token) : block ts = statements block ts :=
  fix_eq (fun _ _ ts h ↦ agreeBelow_statements h ts (Nat.lt_succ_self _)) ts

end Grammar

end BslLint
