import BslLint.Proofs.Grammar.Derivation
import BslLint.Proofs.Grammar.Reading
import BslLint.Proofs.Grammar.Unfolding

/-!
# The parsers for the parts of an expression

Each part of the grammar has its parser, and `p.Ends k` says that nothing in front of `k` is taken
for more of the part. Parts differ in this: `call` ends with its own parenthesis, so anything may
come behind it, while a name is a call when a parenthesis does.

The rules are told here by what they are put together from, in a form that is used from right to
left where tokens are given and from left to right where a parser has read them.
-/

namespace BslLint.Grammar

open BslLint.Parser

/-! ### Parts and their parsers -/

/-- The value of a member, behind its unary operators. -/
def valueParser (inner : Parser) : Parser :=
  select fun
    | some .leftParen => one ++ inner ++ expect .rightParen ++ modifiers inner
    | some .identifier | some (.keyword .new) | some .question => complexIdentifier inner
    | some kind => if isConstant kind then constValue false else node .error (missing .expression)
    | none => node .error (missing .expression)

/-- A member is its operators and its value. -/
theorem member_eq (inner : Parser) :
    member inner = node .member
      (many (isAtAny unaryKinds) (node .unaryModifier one) ++ valueParser inner) := rfl

/-- The beginning of a value that is named, made or chosen. -/
def headParser (inner : Parser) : Parser :=
  select fun
    | some (.keyword .new) => newExpression inner
    | some .question => ternaryOperator inner
    | _ => identifierHead inner

/-- The parser that reads a part. -/
def Part.parser : Part → Parser
  | expression => Grammar.expression
  | row => many atBinaryOperator (operation ++ Grammar.member Grammar.expression)
  | member => Grammar.member Grammar.expression
  | value => valueParser Grammar.expression
  | head => headParser Grammar.expression
  | typeName => when (isAt .identifier) (node .typeName one)
  | callOrNone => when (isAt .leftParen) (doCall Grammar.expression)
  | modifiers => Grammar.modifiers Grammar.expression
  | modifier => ifAhead (isAt .dot) (memberAccess Grammar.expression)
      (indexAccess Grammar.expression)
  | call => doCall Grammar.expression
  | argument => callParam Grammar.expression
  | arguments => many (isAt .comma) (one ++ callParam Grammar.expression)

/-- An expression is read as its first member and the row behind it. -/
theorem reads_expression {ts us : List Token} {cs : List Tree} :
    expression.Reads ts cs us ↔
      ∃ ds, (Part.member.parser ++ Part.row.parser).Reads ts ds us ∧
        cs = [.node .expression ds] :=
  (reads_congr (expression_eq ts)).trans reads_node

/-! ### What must not come behind -/

/-- The kinds that continue a part, so that one of them must not come behind it. -/
def Part.continuations : Part → List Token.Kind
  | expression | row =>
    .dot :: .leftBracket :: .leftParen :: .identifier :: .stringLiteral :: binaryKinds
  | member | value => [.dot, .leftBracket, .leftParen, .identifier, .stringLiteral]
  | head => [.leftParen, .identifier]
  | typeName => [.identifier]
  | callOrNone | modifier => [.leftParen]
  | modifiers => [.dot, .leftBracket, .leftParen]
  | call | argument | arguments => []

/-- The tokens do not begin with one of the kinds. -/
def Avoids (kinds : List Token.Kind) (ts : List Token) : Prop :=
  ∀ k, peek ts = some k → k ∉ kinds

/-- What comes behind a part is not more of it. Arguments stand inside of parentheses: behind one
comes a comma or the closing parenthesis, and behind all of them the parenthesis. -/
def Part.Ends : Part → List Token → Prop
  | argument, k => peek k = some .comma ∨ peek k = some .rightParen
  | arguments, k => peek k = some .rightParen
  | p, k => Avoids p.continuations k

theorem avoids_cons {kinds : List Token.Kind} {t : Token} {ts : List Token} :
    Avoids kinds (t :: ts) ↔ t.kind ∉ kinds :=
  ⟨fun h ↦ h _ rfl, fun h _ hk ↦ Option.some.inj hk ▸ h⟩

/-- A token that is of a kind is of none of the others. -/
theorem avoids_token {kinds : List Token.Kind} {kind : Token.Kind} {t : Token} {ts : List Token}
    (ht : t.kind = kind) (hkind : kind ∉ kinds) : Avoids kinds (t :: ts) :=
  avoids_cons.2 (ht ▸ hkind)

theorem Avoids.mono {kinds kinds' : List Token.Kind} {ts : List Token} (h : Avoids kinds ts)
    (hsub : kinds' ⊆ kinds) : Avoids kinds' ts :=
  fun k hk hmem ↦ h k hk (hsub hmem)

/-- What is avoided is not ahead. -/
theorem Avoids.isAt {kinds : List Token.Kind} {ts : List Token} (h : Avoids kinds ts)
    {k : Token.Kind} (hk : k ∈ kinds) : isAt k ts = false := by
  rw [Bool.eq_false_iff]
  intro hat
  obtain ⟨t, us, rfl, rfl⟩ := isAt_iff.1 hat
  exact avoids_cons.1 h hk

theorem Avoids.isAtAny {kinds : List Token.Kind} {ts : List Token} (h : Avoids kinds ts) :
    isAtAny kinds ts = false := by
  cases ts with
  | nil => rfl
  | cons t ts =>
    show kinds.contains t.kind = false
    rw [List.contains_eq_mem, decide_eq_false_iff_not]
    exact avoids_cons.1 h

/-- Behind a part that may be missing comes what the part begins with, or what comes behind it. -/
theorem Derives.avoids_append {p : Part} {w : List Token} {cs : List Tree} (h : Derives p w cs)
    {kinds : List Token.Kind} {k : List Token} (hfirsts : ∀ kind ∈ p.firsts, kind ∉ kinds)
    (hk : Avoids kinds k) : Avoids kinds (w ++ k) := by
  obtain ⟨rfl, -⟩ | ⟨t, ts, rfl, ht⟩ := h.begins
  · exact hk
  · exact avoids_cons.2 (hfirsts _ ht)

/-- A part that is there begins with one of its first kinds. -/
theorem Derives.avoids {p : Part} {w : List Token} {cs : List Tree} (h : Derives p w cs)
    (hp : p.isOptional = false) {kinds : List Token.Kind}
    (hfirsts : ∀ kind ∈ p.firsts, kind ∉ kinds) (k : List Token) : Avoids kinds (w ++ k) := by
  obtain ⟨t, ts, rfl, ht⟩ := h.begins_of_ne hp
  exact avoids_cons.2 (hfirsts _ ht)

theorem Derives.isAt_leftParen {w : List Token} {cs : List Tree} (h : Derives .call w cs)
    (k : List Token) : isAt .leftParen (w ++ k) = true := by
  obtain ⟨l, ts, rfl, hl⟩ := h.begins_of_ne rfl
  exact isAt_iff.2 ⟨l, ts ++ k, rfl, List.mem_singleton.1 hl⟩

/-- Behind an argument comes a comma, or the parenthesis that ends them all. -/
theorem Derives.argument_ends {w k : List Token} {cs : List Tree} (h : Derives .arguments w cs)
    (hk : peek k = some .rightParen) : Part.argument.Ends (w ++ k) := by
  obtain ⟨rfl, -⟩ | ⟨t, ts, rfl, ht⟩ := h.begins
  · exact .inr hk
  · exact .inl (congrArg some (List.mem_singleton.1 ht))

/-! ### Classes of tokens -/

/-- The grammar and the parser agree on the operators between members, -/
theorem isBinaryOperator_iff {k : Token.Kind} : isBinaryOperator k = true ↔ k ∈ binaryKinds := by
  cases k with
  | keyword word => cases word <;> decide
  | _ => decide

/-- on constants, -/
theorem isConstant_iff {k : Token.Kind} :
    isConstant k = true ↔ k = .stringLiteral ∨ k ∈ constantKinds := by
  cases k with
  | keyword word => cases word <;> decide
  | _ => decide

/-- and on names. -/
theorem isNameLike_iff {k : Token.Kind} : k.isNameLike = true ↔ IsName k := by
  cases k <;> simp [Token.Kind.isNameLike, IsName]

theorem atBinaryOperator_cons {t : Token} {ts : List Token} :
    atBinaryOperator (t :: ts) = isBinaryOperator t.kind := rfl

theorem isAtAny_cons {kinds : List Token.Kind} {t : Token} {ts : List Token} :
    isAtAny kinds (t :: ts) = kinds.contains t.kind := rfl

/-- The node of a joining sign or word is the one that the grammar names. -/
theorem reads_operation {t : Token} (ts : List Token) :
    operation.Reads (t :: ts) [operationTree t] ts := by
  refine Reads.node ?_ _
  rw [reads_select_cons rfl]
  have hcomparison : t.kind.isComparison = true ↔
      t.kind ∈ [.equal, .notEqual, .less, .greater, .lessEqual, .greaterEqual] := by
    cases t.kind <;> simp [Token.Kind.isComparison]
  simp only [hcomparison, List.mem_pair]
  split
  · exact Reads.node (reads_one_cons.2 ⟨rfl, rfl⟩) _
  · split
    · exact Reads.node (reads_one_cons.2 ⟨rfl, rfl⟩) _
    · exact reads_one_cons.2 ⟨rfl, rfl⟩

/-! ### One rule at a time

Each rule in terms of what it is put together from, to be used from both sides. -/

section

variable {inner : Parser} {ts us : List Token} {cs : List Tree}

/-- A call is read from one parenthesis to the other. -/
theorem reads_doCall : (doCall inner).Reads ts cs us ↔
    ∃ l r vs ds, l.kind = .leftParen ∧ r.kind = .rightParen ∧ ts = l :: vs ∧
      (commaSeparated (callParam inner)).Reads vs ds (r :: us) ∧
      cs = [.node .doCall [.leaf l, .node .callParamList ds, .leaf r]] := by
  simp only [doCall, reads_node, reads_seq, reads_expect]
  constructor
  · rintro ⟨_, ⟨_, _, _, ⟨_, _, _, ⟨l, hl, rfl, rfl⟩, ⟨ds, hds, rfl⟩, rfl⟩, ⟨r, hr, rfl, rfl⟩, rfl⟩,
      rfl⟩
    exact ⟨l, r, _, ds, hl, hr, rfl, hds, rfl⟩
  · rintro ⟨l, r, vs, ds, hl, hr, rfl, hds, rfl⟩
    exact ⟨_, ⟨_, _, _, ⟨_, _, _, ⟨l, hl, rfl, rfl⟩, ⟨ds, hds, rfl⟩, rfl⟩, ⟨r, hr, rfl, rfl⟩, rfl⟩,
      rfl⟩

/-- An index is read from one bracket to the other. -/
theorem reads_indexAccess (hts : ts ≠ []) : (indexAccess inner).Reads ts cs us ↔
    ∃ l r vs ds, r.kind = .rightBracket ∧ ts = l :: vs ∧ inner.Reads vs ds (r :: us) ∧
      cs = [.node .modifier [.node .accessIndex (.leaf l :: (ds ++ [.leaf r]))]] := by
  simp only [indexAccess, reads_node, reads_seq, reads_expect, reads_one hts]
  constructor
  · rintro ⟨_, ⟨_, ⟨_, _, _, ⟨_, ds, _, ⟨l, rfl, rfl⟩, hds, rfl⟩, ⟨r, hr, rfl, rfl⟩, rfl⟩, rfl⟩,
      rfl⟩
    exact ⟨l, r, _, ds, hr, rfl, hds, rfl⟩
  · rintro ⟨l, r, vs, ds, hr, rfl, hds, rfl⟩
    exact ⟨_, ⟨_, ⟨_, _, _, ⟨_, ds, _, ⟨l, rfl, rfl⟩, hds, rfl⟩, ⟨r, hr, rfl, rfl⟩, rfl⟩, rfl⟩, rfl⟩

/-- With no name behind the dot there is a fault, with a parenthesis behind the name a call. -/
theorem memberAccess_cons (inner : Parser) (d : Token) (ts : List Token) :
    memberAccess inner (d :: ts) =
      if (peek ts).any Token.Kind.isNameLike then
        if isAt .leftParen ts.tail then
          node .modifier (node .accessCall
            (one ++ node .methodCall (node .methodName one ++ doCall inner))) (d :: ts)
        else node .modifier (node .accessProperty (one ++ one)) (d :: ts)
      else node .modifier (node .accessProperty (one ++ missing .propertyName)) (d :: ts) := by
  have hnamed : look 1 (d :: ts) = peek ts := by cases ts <;> rfl
  have hlook : (look 2 (d :: ts) == some .leftParen) = isAt .leftParen ts.tail := by
    match ts with
    | [] | [_] | _ :: _ :: _ => rfl
  show Step.wrap .modifier
      (if ((look 1 (d :: ts)).any Token.Kind.isNameLike && look 2 (d :: ts) == some .leftParen) then
        node .accessCall (one ++ node .methodCall (node .methodName one ++ doCall inner)) (d :: ts)
      else node .accessProperty (one ++ if (look 1 (d :: ts)).any Token.Kind.isNameLike then one
        else missing .propertyName) (d :: ts)) = _
  rw [hnamed, hlook]
  cases (peek ts).any Token.Kind.isNameLike <;> cases isAt .leftParen ts.tail <;> rfl

/-- A dot, a name and the call behind it, -/
theorem reads_accessCall {d t : Token} {vs : List Token} :
    (node .modifier (node .accessCall
      (one ++ node .methodCall (node .methodName one ++ doCall inner)))).Reads (d :: t :: vs) cs
        us ↔
    ∃ ds, (doCall inner).Reads vs ds us ∧ cs = [.node .modifier [.node .accessCall
      [.leaf d, .node .methodCall (.node .methodName [.leaf t] :: ds)]]] := by
  simp only [reads_node, reads_seq, reads_one_cons]
  constructor
  · rintro ⟨_, ⟨_, ⟨_, _, _, ⟨rfl, rfl⟩, ⟨_, ⟨_, ds, _, ⟨_, hone, rfl⟩, hds, rfl⟩, rfl⟩, rfl⟩, rfl⟩,
      rfl⟩
    obtain ⟨rfl, rfl⟩ := reads_one_cons.1 hone
    exact ⟨ds, hds, rfl⟩
  · rintro ⟨ds, hds, rfl⟩
    have hone : one.Reads (t :: vs) [.leaf t] vs := reads_one_cons.2 ⟨rfl, rfl⟩
    exact ⟨_, ⟨_, ⟨_, _, _, ⟨rfl, rfl⟩, ⟨_, ⟨_, ds, _, ⟨_, hone, rfl⟩, hds, rfl⟩, rfl⟩, rfl⟩, rfl⟩,
      rfl⟩

/-- or a dot and a name alone. -/
theorem reads_accessProperty {d t : Token} {vs : List Token} :
    (node .modifier (node .accessProperty (one ++ one))).Reads (d :: t :: vs) cs us ↔
      us = vs ∧ cs = [.node .modifier [.node .accessProperty [.leaf d, .leaf t]]] := by
  simp only [reads_node, reads_seq, reads_one_cons]
  constructor
  · rintro ⟨_, ⟨_, ⟨_, _, _, ⟨rfl, rfl⟩, hone, rfl⟩, rfl⟩, rfl⟩
    obtain ⟨rfl, rfl⟩ := reads_one_cons.1 hone
    exact ⟨rfl, rfl⟩
  · rintro ⟨rfl, rfl⟩
    exact ⟨_, ⟨_, ⟨_, _, _, ⟨rfl, rfl⟩, reads_one_cons.2 ⟨rfl, rfl⟩, rfl⟩, rfl⟩, rfl⟩

/-- A dot without a name is a fault. -/
theorem not_reads_accessMissing :
    ¬(node .modifier (node .accessProperty (one ++ missing .propertyName))).Reads ts cs us := by
  intro h
  obtain ⟨_, h, -⟩ := reads_node.1 h
  obtain ⟨_, h, -⟩ := reads_node.1 h
  obtain ⟨_, _, _, -, h, -⟩ := reads_seq.1 h
  exact absurd h not_reads_missing

/-- Behind a dot comes a name, and with a parenthesis behind the name a call. -/
theorem reads_memberAccess {d : Token} {ts : List Token} :
    (memberAccess inner).Reads (d :: ts) cs us ↔
      ∃ t vs, ts = t :: vs ∧ IsName t.kind ∧
        if isAt .leftParen vs then
          ∃ ds, (doCall inner).Reads vs ds us ∧
            cs = [.node .modifier [.node .accessCall
              [.leaf d, .node .methodCall (.node .methodName [.leaf t] :: ds)]]]
        else us = vs ∧ cs = [.node .modifier [.node .accessProperty [.leaf d, .leaf t]]] := by
  -- The reader looks at the token behind the dot before it takes the dot.
  by_cases hname : (peek ts).any Token.Kind.isNameLike = true
  · obtain ⟨t, vs, rfl⟩ : ∃ t vs, ts = t :: vs := by
      cases ts with
      | nil => exact nomatch hname
      | cons t vs => exact ⟨t, vs, rfl⟩
    have ht : IsName t.kind := isNameLike_iff.1 hname
    have hmember := memberAccess_cons inner d (t :: vs)
    rw [if_pos hname, List.tail_cons] at hmember
    split at hmember
    next h =>
      rw [reads_congr hmember, reads_accessCall]
      constructor
      · exact fun hread ↦ ⟨t, vs, rfl, ht, by rwa [if_pos h]⟩
      · rintro ⟨_, _, hts, -, hread⟩
        obtain ⟨rfl, rfl⟩ := List.cons.inj hts
        rwa [if_pos h] at hread
    next h =>
      rw [reads_congr hmember, reads_accessProperty]
      constructor
      · exact fun hread ↦ ⟨t, vs, rfl, ht, by rwa [if_neg h]⟩
      · rintro ⟨_, _, hts, -, hread⟩
        obtain ⟨rfl, rfl⟩ := List.cons.inj hts
        rwa [if_neg h] at hread
  · have hmember := memberAccess_cons inner d ts
    rw [if_neg hname] at hmember
    rw [reads_congr hmember]
    constructor
    · exact fun hread ↦ absurd hread not_reads_accessMissing
    · rintro ⟨t, vs, rfl, ht, -⟩
      exact absurd (isNameLike_iff.2 ht) hname

/-- Behind the word for a new object come a type and arguments, or one of them, or none. -/
theorem reads_newExpression (hts : ts ≠ []) : (newExpression inner).Reads ts cs us ↔
    ∃ t vs ws ds es, ts = t :: vs ∧ (when (isAt .identifier) (node .typeName one)).Reads vs ds ws ∧
      (when (isAt .leftParen) (doCall inner)).Reads ws es us ∧
      cs = [.node .newExpression (.leaf t :: (ds ++ es))] := by
  simp only [newExpression, reads_node, reads_seq, reads_one hts]
  constructor
  · rintro ⟨_, ⟨_, es, ws, ⟨_, ds, vs, ⟨t, rfl, rfl⟩, hds, rfl⟩, hes, rfl⟩, rfl⟩
    exact ⟨t, vs, ws, ds, es, rfl, hds, hes, rfl⟩
  · rintro ⟨t, vs, ws, ds, es, rfl, hds, hes, rfl⟩
    exact ⟨_, ⟨_, es, ws, ⟨_, ds, vs, ⟨t, rfl, rfl⟩, hds, rfl⟩, hes, rfl⟩, rfl⟩

/-- A choice is read from its sign to its closing parenthesis, with both commas. -/
theorem reads_ternaryOperator (hts : ts ≠ []) : (ternaryOperator inner).Reads ts cs us ↔
    ∃ q l c c' r vs ws xs ds es fs, l.kind = .leftParen ∧ c.kind = .comma ∧ c'.kind = .comma ∧
      r.kind = .rightParen ∧ ts = q :: l :: vs ∧ inner.Reads vs ds (c :: ws) ∧
      inner.Reads ws es (c' :: xs) ∧ inner.Reads xs fs (r :: us) ∧
      cs = [.node .ternaryOperator (.leaf q :: .leaf l ::
        (ds ++ .leaf c :: (es ++ .leaf c' :: (fs ++ [.leaf r]))))] := by
  rw [ternaryOperator]
  constructor
  · -- The rule is taken apart from its end, and put together again in the other direction.
    intro hnode
    obtain ⟨_, h₁, rfl⟩ := reads_node.1 hnode
    obtain ⟨_, _, _, h₂, hr, rfl⟩ := reads_seq.1 h₁
    obtain ⟨_, fs, xs, h₃, hfs, rfl⟩ := reads_seq.1 h₂
    obtain ⟨_, _, _, h₄, hc', rfl⟩ := reads_seq.1 h₃
    obtain ⟨_, es, ws, h₅, hes, rfl⟩ := reads_seq.1 h₄
    obtain ⟨_, _, _, h₆, hc, rfl⟩ := reads_seq.1 h₅
    obtain ⟨_, ds, vs, h₇, hds, rfl⟩ := reads_seq.1 h₆
    obtain ⟨_, _, _, hq, hl, rfl⟩ := reads_seq.1 h₇
    obtain ⟨q, rfl, rfl⟩ := (reads_one hts).1 hq
    obtain ⟨l, hkl, rfl, rfl⟩ := reads_expect.1 hl
    obtain ⟨c, hkc, rfl, rfl⟩ := reads_expect.1 hc
    obtain ⟨c', hkc', rfl, rfl⟩ := reads_expect.1 hc'
    obtain ⟨r, hkr, rfl, rfl⟩ := reads_expect.1 hr
    refine ⟨q, l, c, c', r, vs, ws, xs, ds, es, fs, hkl, hkc, hkc', hkr, rfl, hds, hes, hfs, ?_⟩
    simp only [List.append_assoc, List.cons_append, List.nil_append]
  · rintro ⟨q, l, c, c', r, vs, ws, xs, ds, es, fs, hl, hc, hc', hr, rfl, hds, hes, hfs, rfl⟩
    have hone : one.Reads (q :: l :: vs) [.leaf q] (l :: vs) := reads_one_cons.2 ⟨rfl, rfl⟩
    have hall := (((((((hone.seq (.expect hl _)).seq hds).seq (.expect hc _)).seq hes).seq
      (.expect hc' _)).seq hfs).seq (.expect hr _)).node .ternaryOperator
    simpa only [List.append_assoc, List.cons_append, List.nil_append] using hall

/-- A call by name is a name and its arguments. -/
theorem reads_globalMethodCall (hts : ts ≠ []) : (globalMethodCall inner).Reads ts cs us ↔
    ∃ t vs ds, ts = t :: vs ∧ (doCall inner).Reads vs ds us ∧
      cs = [.node .globalMethodCall (.node .methodName [.leaf t] :: ds)] := by
  simp only [globalMethodCall, reads_node, reads_seq, reads_one hts]
  constructor
  · rintro ⟨_, ⟨_, ds, vs, ⟨_, ⟨t, rfl, rfl⟩, rfl⟩, hds, rfl⟩, rfl⟩
    exact ⟨t, vs, ds, rfl, hds, rfl⟩
  · rintro ⟨t, vs, ds, rfl, hds, rfl⟩
    exact ⟨_, ⟨_, ds, vs, ⟨_, ⟨t, rfl, rfl⟩, rfl⟩, hds, rfl⟩, rfl⟩

/-- A name with a parenthesis behind it is called. -/
theorem reads_identifierHead {t : Token} {ts : List Token} :
    (identifierHead inner).Reads (t :: ts) cs us ↔
      if isAt .leftParen ts then
        ∃ ds, (doCall inner).Reads ts ds us ∧
          cs = [.node .globalMethodCall (.node .methodName [.leaf t] :: ds)]
      else us = ts ∧ cs = [.leaf t] := by
  have hlook : (look 1 (t :: ts) == some .leftParen) = isAt .leftParen ts := rfl
  split
  next h =>
    rw [identifierHead, reads_ifAhead_pos (hlook.trans h), reads_globalMethodCall (by simp)]
    constructor
    · rintro ⟨_, _, ds, h, hds, rfl⟩
      obtain ⟨rfl, rfl⟩ := List.cons.inj h
      exact ⟨ds, hds, rfl⟩
    · rintro ⟨ds, hds, rfl⟩
      exact ⟨t, ts, ds, rfl, hds, rfl⟩
  next h =>
    rw [identifierHead, reads_ifAhead_neg (hlook.trans (Bool.eq_false_iff.2 h)), reads_one_cons,
      and_comm]

end

end BslLint.Grammar
