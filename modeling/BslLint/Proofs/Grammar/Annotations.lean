import BslLint.Proofs.Grammar.Coverage

/-!
# Where annotations end

What is declared behind annotations is found by matching the parentheses of their arguments
(`afterDirectives`), but the arguments are read by the rules for expressions, which recover in ways
of their own. The two are compared step by step: while the annotations are read, the search is at
some depth of parentheses in front of what is left (`Leads`), and the rules for expressions keep up
with it (`tracks_expression`), since out of all parentheses there is nothing for them to read: there
the search has come to a word that begins a declaration, or to the next annotation.

So **reading does not get past the place that the search has found, and it gets there exactly if it
has read as many closing parentheses as opening ones** (`exists_of_annotations`). Otherwise it stops
inside of the arguments.
-/

namespace BslLint.Grammar

open BslLint.Parser

/-! ### The depth of the search -/

/-- What follows the annotations at the front, from inside of some open parentheses on. -/
def behind (depth : Nat) (ts : List Token) : List Token :=
  afterDirectives (if depth = 0 then ts else afterParens depth ts)

/-- The words that begin the declarations that may have annotations. -/
def declarationWords : List Token.Kind := [.keyword .procedure, .keyword .function, .keyword .var]

/-- The search comes to a declaration. -/
def Finds (depth : Nat) (ts : List Token) : Prop :=
  isAtAny declarationWords (behind depth ts) = true

/-- The number of opening parentheses. -/
def opened (w : List Token) : Nat := w.countP (·.kind = .leftParen)

/-- The number of closing parentheses. -/
def closed (w : List Token) : Nat := w.countP (·.kind = .rightParen)

variable {w v us ts : List Token} {t : Token} {depth depth' depth'' : Nat}

theorem opened_append : opened (w ++ v) = opened w + opened v := List.countP_append

theorem closed_append : closed (w ++ v) = closed w + closed v := List.countP_append

/-- Other tokens than parentheses are passed over at every depth. -/
theorem afterParens_cons (hl : t.kind ≠ .leftParen) (hr : t.kind ≠ .rightParen) :
    afterParens depth (t :: us) = afterParens depth us := by
  rw [afterParens]
  split <;> simp_all

/-- Some tokens in front of others take the search from one depth to another. -/
structure Leads (depth : Nat) (w : List Token) (depth' : Nat) (us : List Token) : Prop where
  /-- The search finds the same behind them. -/
  behind_eq : behind depth' us = behind depth (w ++ us)
  /-- The depths differ by what the tokens open and close. -/
  count : opened w + depth = closed w + depth'

namespace Leads

theorem nil : Leads depth [] depth us := ⟨rfl, rfl⟩

/-- Two stretches of tokens lead as far as both of them do. -/
theorem append (h : Leads depth w depth' (v ++ us)) (h' : Leads depth' v depth'' us) :
    Leads depth (w ++ v) depth'' us := by
  refine ⟨?_, ?_⟩
  · rw [h'.behind_eq, h.behind_eq, List.append_assoc]
  · have hcount := h.count
    have hcount' := h'.count
    rw [opened_append, closed_append]
    omega

/-- Inside of parentheses every token takes the search on. -/
theorem exists_single (depth : Nat) (t : Token) (us : List Token) :
    ∃ depth', Leads (depth + 1) [t] depth' us := by
  have hbehind : behind (depth + 1) ([t] ++ us) =
      afterDirectives (afterParens (depth + 1) (t :: us)) :=
    congrArg afterDirectives (if_neg (Nat.succ_ne_zero depth))
  by_cases hl : t.kind = .leftParen
  · refine ⟨depth + 2, ?_, ?_⟩
    · rw [hbehind, afterParens, hl]
      rfl
    · simp only [opened, closed, hl, List.countP_singleton, decide_true, if_true, reduceCtorEq,
        decide_false, Bool.false_eq_true, if_false]
      omega
  by_cases hr : t.kind = .rightParen
  · refine ⟨depth, ?_, ?_⟩
    · rw [hbehind, afterParens, hr]
      -- the last parenthesis ends the arguments
      cases depth <;> rfl
    · simp only [opened, closed, hr, List.countP_singleton, decide_true, if_true, reduceCtorEq,
        decide_false, Bool.false_eq_true, if_false]
      omega
  · refine ⟨depth + 1, ?_, by simp [opened, closed, hl, hr]⟩
    rw [hbehind, afterParens_cons hl hr]
    rfl

end Leads

/-- Where no annotation begins, the search ends at once. -/
theorem behind_zero_of_avoids (h : Avoids [.directive] ts) : behind 0 ts = ts := by
  rw [behind, if_pos rfl]
  cases ts with
  | nil => rw [afterDirectives]
  | cons t ts => rw [afterDirectives, if_neg (by simpa using avoids_cons.1 h)]

/-! ### Parsers that keep up with the search -/

/-- What the parser reads from here on takes the search on. -/
def Follows (depth : Nat) (p : Parser) (ts : List Token) : Prop :=
  Finds depth ts → ∃ depth', Leads depth (Tree.tokensAll (p ts).trees) depth' (p ts).rest

/-- The parser keeps up with the search at every depth. -/
def Tracks (p : Parser) (ts : List Token) : Prop := ∀ depth, Follows depth p ts

/-- What begins neither an annotation nor a declaration. -/
abbrev IsInside (ts : List Token) : Prop := Avoids (.directive :: declarationWords) ts

variable {p q : Parser} {ahead : List Token → Bool}

/-- What the search finds, it finds from later on as well. -/
theorem Leads.finds (h : Leads depth w depth' us) (hfinds : Finds depth (w ++ us)) :
    Finds depth' us := by
  rw [Finds, h.behind_eq]
  exact hfinds

/-- A parser that follows the search may be followed by one that does so from where the first one
ends. -/
theorem Follows.seq (hp : Follows depth p ts)
    (hq : ∀ depth', Leads depth (Tree.tokensAll (p ts).trees) depth' (p ts).rest →
      Follows depth' q (p ts).rest) : Follows depth (p ++ q) ts := by
  intro hfinds
  obtain ⟨depth', hlead⟩ := hp hfinds
  rw [← (p ts).tokens_append_rest] at hfinds
  obtain ⟨depth'', hlead'⟩ := hq depth' hlead (hlead.finds hfinds)
  refine ⟨depth'', ?_⟩
  rw [trees_seq, Tree.tokensAll_append, rest_seq]
  exact Leads.append (by rwa [(q (p ts).rest).tokens_append_rest]) hlead'

theorem Follows.node (h : Follows depth p ts) (k : NodeKind) : Follows depth (node k p) ts := by
  intro hfinds
  rw [trees_node, Tree.tokensAll, Tree.tokens, Tree.tokensAll, List.append_nil]
  exact h hfinds

/-- Two parsers in a row keep up if both do. -/
theorem Tracks.seq (hp : Tracks p ts) (hq : Tracks q (p ts).rest) : Tracks (p ++ q) ts :=
  fun depth ↦ (hp depth).seq fun depth' _ ↦ hq depth'

theorem Tracks.node (h : Tracks p ts) (k : NodeKind) : Tracks (node k p) ts :=
  fun depth ↦ (h depth).node k

theorem tracks_nothing : Tracks nothing ts := fun depth _ ↦ ⟨depth, .nil⟩

theorem tracks_missing (wanted : Expectation) : Tracks (missing wanted) ts :=
  fun depth _ ↦ ⟨depth, .nil⟩

/-- The choice between two parsers keeps up if both do where they are chosen. -/
theorem tracks_ifAhead (hp : ahead ts = true → Tracks p ts) (hq : ahead ts = false → Tracks q ts) :
    Tracks (ifAhead ahead p q) ts := by
  intro depth
  cases h : ahead ts with
  | true =>
    rw [Follows, ifAhead_pos h]
    exact hp h depth
  | false =>
    rw [Follows, ifAhead_neg h]
    exact hq h depth

theorem tracks_when (hp : ahead ts = true → Tracks p ts) : Tracks (when ahead p) ts :=
  tracks_ifAhead hp fun _ ↦ tracks_nothing

theorem tracks_select {choice : Option Token.Kind → Parser}
    (h : ∀ k, peek ts = k → Tracks (choice k) ts) : Tracks (select choice) ts := h _ rfl

/-- A loop keeps up if each of its rounds does. -/
theorem tracks_many (hp : ∀ ts, ahead ts = true → Tracks p ts) : Tracks (many ahead p) ts := by
  refine many_induction (motive := fun ts s ↦ ∀ depth, Finds depth ts →
    ∃ depth', Leads depth (Tree.tokensAll s.trees) depth' s.rest) (fun _ _ ↦ tracks_nothing)
    (fun ts hgo _ ↦ hp ts hgo) (fun ts hgo _ ih ↦ ?_) ts
  exact Tracks.seq (p := p) (q := many ahead p) (hp ts hgo) ih

/-- Inside of parentheses any token may be read. -/
theorem follows_one (depth : Nat) (ts : List Token) : Follows (depth + 1) one ts := by
  intro _
  cases ts with
  | nil => exact ⟨depth + 1, .nil⟩
  | cons t us => exact Leads.exists_single depth t us

/-- What begins no annotation and no declaration stands inside of parentheses. -/
theorem not_finds_zero (h : IsInside ts) : ¬Finds 0 ts := by
  have hnone := h.mono (List.cons_subset_cons _ (List.nil_subset _))
  rw [Finds, behind_zero_of_avoids hnone,
    (h.mono (List.subset_cons_self _ declarationWords)).isAtAny]
  exact Bool.false_ne_true

/-- Inside of parentheses a token that begins no declaration may be read. -/
theorem tracks_one (h : IsInside ts) : Tracks one ts
  | 0 => fun hfinds ↦ absurd hfinds (not_finds_zero h)
  | depth + 1 => follows_one depth ts

/-- A token of such a kind begins neither an annotation nor a declaration. -/
theorem isInside_of_isAt {k : Token.Kind} (hk : k ∉ .directive :: declarationWords)
    (h : isAt k ts = true) : IsInside ts := by
  obtain ⟨t, us, rfl, rfl⟩ := isAt_iff.1 h
  exact avoids_cons.2 hk

/-- If the token is not there, nothing is read. -/
theorem tracks_expect {k : Token.Kind} (hk : k ∉ .directive :: declarationWords) :
    Tracks (expect k) ts :=
  tracks_ifAhead (fun h ↦ tracks_one (isInside_of_isAt hk h)) fun _ ↦ tracks_missing _

theorem tracks_commaSeparated (hp : ∀ ts, Tracks p ts) : Tracks (commaSeparated p) ts :=
  (hp ts).seq (tracks_many fun _ h ↦ (tracks_one (isInside_of_isAt (by decide) h)).seq (hp _))

/-- The next token is of one of these kinds, so it begins neither. -/
theorem isInside_of_peek {kinds : List Token.Kind} {k : Token.Kind} (hk : peek ts = some k)
    (hmem : k ∈ kinds) (hkinds : ∀ k ∈ kinds, k ∉ .directive :: declarationWords) :
    IsInside ts := by
  intro k' hk'
  obtain rfl := Option.some.inj (hk.symm.trans hk')
  exact hkinds k hmem

/-- An operator is a sign or a word, but none that declares something. -/
theorem tracks_operation (h : atBinaryOperator ts = true) : Tracks operation ts := by
  have hone : Tracks one ts := by
    obtain ⟨k, hk, hbinary⟩ := (Option.any_eq_true _ _).1 h
    exact tracks_one (isInside_of_peek hk (isBinaryOperator_iff.1 hbinary) (by decide))
  refine (tracks_select fun k _ ↦ ?_).node _
  rcases k with - | k
  · exact hone
  · simp only
    split
    · exact hone.node _
    · split
      · exact hone.node _
      · exact hone

/-- A constant is one token, or one behind a sign. -/
theorem tracks_constValue : Tracks (constValue false) ts := by
  refine ((tracks_when fun h ↦ absurd h (by simp)).seq (tracks_select fun k hk ↦ ?_)).node _
  split
  · exact tracks_many fun _ h ↦ tracks_one (isInside_of_isAt (by decide) h)
  · split
    next hconstant =>
      have hmem : _ ∈ .stringLiteral :: constantKinds :=
        List.mem_cons.2 (isConstant_iff.1 hconstant)
      exact tracks_one (isInside_of_peek hk hmem (by decide))
    · exact tracks_missing _
  · exact tracks_missing _

/-- The arguments of a call behind the parenthesis that opens them. -/
def arguments (inner : Parser) : Parser :=
  node .callParamList (commaSeparated (callParam inner)) ++ expect .rightParen

/-- A call is its opening parenthesis and what is behind it. -/
theorem doCall_eq (inner : Parser) :
    doCall inner = node .doCall (expect .leftParen ++ arguments inner) :=
  congrArg (node .doCall) (seq_assoc _ _ _)

section

variable {inner : Parser} (hinner : ∀ ts, Tracks inner ts)

include hinner

/-- The arguments take the search to the parenthesis that closes them. -/
theorem tracks_arguments : Tracks (arguments inner) ts :=
  ((tracks_commaSeparated fun _ ↦ (tracks_when fun _ ↦ hinner _).node _).node _).seq
    (tracks_expect (by decide))

/-- The parentheses of a call are opened and closed in one go. -/
theorem tracks_doCall : Tracks (doCall inner) ts := by
  rw [doCall_eq]
  exact ((tracks_expect (by decide)).seq (tracks_arguments hinner)).node _

theorem tracks_identifierHead (h : IsInside ts) : Tracks (identifierHead inner) ts :=
  tracks_ifAhead (fun _ ↦ (((tracks_one h).node _).seq (tracks_doCall hinner)).node _)
    fun _ ↦ tracks_one h

/-- Behind a dot the name is read inside of the same parentheses, whatever word it is. -/
theorem tracks_memberAccess (h : isAt .dot ts = true) : Tracks (memberAccess inner) ts := by
  have hinside : IsInside ts := isInside_of_isAt (by decide) h
  obtain ⟨d, us, rfl, hd⟩ := isAt_iff.1 h
  -- The dot changes nothing about the parentheses, so what is behind it is read at the same depth.
  have hdot {p : Parser} (hp : ∀ depth, Follows (depth + 1) p us) :
      Tracks (one ++ p) (d :: us) := by
    intro depth
    rcases depth with - | depth
    · exact fun hfinds ↦ absurd hfinds (not_finds_zero hinside)
    · refine (follows_one depth _).seq fun depth' hlead ↦ ?_
      obtain rfl : depth' = depth + 1 := by
        have hcount : opened [d] + (depth + 1) = closed [d] + depth' := hlead.count
        simp only [opened, closed, hd, List.countP_singleton, decide_false, reduceCtorEq,
          Bool.false_eq_true, if_false] at hcount
        omega
      exact hp depth
  have hname (depth : Nat) : Follows (depth + 1) (node .methodCall (node .methodName one ++
      doCall inner)) us :=
    (((follows_one depth us).node _).seq fun _ _ ↦ tracks_doCall hinner _).node _
  rw [memberAccess_eq]
  exact (tracks_ifAhead (fun _ ↦ (hdot hname).node _)
    fun _ ↦ tracks_ifAhead (fun _ ↦ (hdot fun depth ↦ follows_one depth us).node _)
      fun _ ↦ (hdot fun depth ↦ tracks_missing _ _).node _).node _

theorem tracks_indexAccess (h : isAt .leftBracket ts = true) : Tracks (indexAccess inner) ts :=
  ((((tracks_one (isInside_of_isAt (by decide) h)).seq (hinner _)).seq
    (tracks_expect (by decide))).node _).node _

/-- Each access begins with a dot or a bracket. -/
theorem tracks_modifiers : Tracks (modifiers inner) ts := by
  refine tracks_many fun ts h ↦ tracks_ifAhead (fun hdot ↦ tracks_memberAccess hinner hdot)
    fun hdot ↦ tracks_indexAccess hinner ?_
  obtain ⟨t, us, rfl, ht⟩ := exists_of_isAtAny h
  rw [isAt_cons, beq_eq_false_iff_ne] at hdot
  exact isAt_iff.2 ⟨t, us, rfl, by simpa [hdot] using ht⟩

theorem tracks_newExpression (h : IsInside ts) : Tracks (newExpression inner) ts :=
  (((tracks_one h).seq (tracks_when fun hat ↦
    (tracks_one (isInside_of_isAt (by decide) hat)).node _)).seq
    (tracks_when fun _ ↦ tracks_doCall hinner)).node _

theorem tracks_ternaryOperator (h : IsInside ts) : Tracks (ternaryOperator inner) ts := by
  have hexpect {k : Token.Kind} (hk : k ∉ .directive :: declarationWords) (ts : List Token) :
      Tracks (expect k) ts := tracks_expect hk
  exact ((((((((tracks_one h).seq (hexpect (by decide) _)).seq (hinner _)).seq
    (hexpect (by decide) _)).seq (hinner _)).seq (hexpect (by decide) _)).seq (hinner _)).seq
    (hexpect (by decide) _)).node _

/-- A value is made, chosen or named, and then accessed. -/
theorem tracks_complexIdentifier (h : IsInside ts) : Tracks (complexIdentifier inner) ts := by
  refine ((tracks_select fun k _ ↦ ?_).seq (tracks_modifiers hinner)).node _
  split
  · exact tracks_newExpression hinner h
  · exact tracks_ternaryOperator hinner h
  · exact tracks_identifierHead hinner h

/-- Signs come first, and then a constant, a value or an expression in parentheses. -/
theorem tracks_member : Tracks (member inner) ts := by
  refine ((tracks_many fun ts h ↦ ?_).seq (tracks_select fun k hk ↦ ?_)).node _
  · obtain ⟨t, us, rfl, ht⟩ := exists_of_isAtAny h
    exact (tracks_one (isInside_of_peek rfl ht (by decide))).node _
  have hinside {k' : Token.Kind} (hk' : k = some k') (h : k' ∉ .directive :: declarationWords) :
      IsInside _ := isInside_of_peek (hk.trans hk') (List.mem_singleton_self k') (by simpa using h)
  split
  · exact (((tracks_one (hinside rfl (by decide))).seq (hinner _)).seq
      (tracks_expect (by decide))).seq (tracks_modifiers hinner)
  · exact tracks_complexIdentifier hinner (hinside rfl (by decide))
  · exact tracks_complexIdentifier hinner (hinside rfl (by decide))
  · exact tracks_complexIdentifier hinner (hinside rfl (by decide))
  · split
    · exact tracks_constValue
    · exact (tracks_missing _).node _
  · exact (tracks_missing _).node _

/-- An expression is a row of members and operators. -/
theorem tracks_members : Tracks (members inner) ts :=
  ((tracks_member hinner).seq (tracks_many fun _ h ↦
    (tracks_operation h).seq (tracks_member hinner))).node _

end

/-- **The rules for expressions keep up with the search.** -/
theorem tracks_expression (ts : List Token) : Tracks expression ts := by
  have hnested : ∀ depth ts, Tracks (nested members depth) ts := by
    intro depth
    induction depth with
    | zero => exact fun ts ↦ tracks_members fun _ ↦ tracks_nothing
    | succ depth ih => exact fun ts ↦ tracks_members ih
  exact hnested ts.length ts

/-! ### Annotations -/

/-- What is read of an annotation. -/
def annotated : Parser :=
  node .compilerDirective (one ++ when (isAt .leftParen) (doCall expression))

/-- An annotation without parentheses is passed over alone. -/
theorem behind_zero_cons (ht : t.kind = .directive) (hus : isAt .leftParen us = false) :
    behind 0 (t :: us) = behind 0 us := by
  rw [behind, behind, if_pos rfl, if_pos rfl, afterDirectives, if_pos ht, hus]
  rfl

/-- Behind an annotation with parentheses the search goes on inside of them. -/
theorem behind_zero_cons_cons {l : Token} (ht : t.kind = .directive) (hl : l.kind = .leftParen) :
    behind 0 (t :: l :: us) = behind 1 us := by
  rw [behind, behind, if_pos rfl, if_neg Nat.one_ne_zero, afterDirectives, if_pos ht,
    isAt_cons, hl, if_pos (beq_self_eq_true _), afterParens, hl]

/-- An annotation that stands free is read up to the inside of its parentheses, and from there by
the rules for expressions. -/
theorem follows_annotated_zero (ht : t.kind = .directive) : Follows 0 annotated (t :: us) := by
  intro hfinds
  -- Without parentheses the annotation is over, and the next thing stands free again.
  cases hparen : isAt .leftParen us with
  | false =>
    have hcall : when (isAt .leftParen) (doCall expression) us = .start us := ifAhead_neg hparen
    show ∃ depth', Leads 0 ([t] ++ Tree.tokensAll (when _ _ us).trees ++ []) depth'
      (when _ _ us).rest
    rw [hcall]
    refine ⟨0, (behind_zero_cons ht hparen).symm, ?_⟩
    show opened [t] + 0 = closed [t] + 0
    simp [opened, closed, ht]
  | true =>
    obtain ⟨l, vs, rfl, hl⟩ := isAt_iff.1 hparen
    have hopen : expect .leftParen (l :: vs) = one (l :: vs) := ifAhead_pos hparen
    have hcall : when (isAt .leftParen) (doCall expression) (l :: vs) =
        node .doCall (one ++ arguments expression) (l :: vs) := by
      rw [when, ifAhead_pos hparen, doCall_eq]
      show Step.wrap _ (Step.andThen _ _) = _
      rw [hopen]
      rfl
    have hlead : Leads 0 [t, l] 1 (Tree.tokensAll (arguments expression vs).trees ++
        (arguments expression vs).rest) := by
      rw [(arguments expression vs).tokens_append_rest]
      exact ⟨(behind_zero_cons_cons ht hl).symm, by simp [opened, closed, ht, hl]⟩
    show ∃ depth', Leads 0 ([t] ++ Tree.tokensAll (when _ _ (l :: vs)).trees ++ []) depth'
      (when _ _ (l :: vs)).rest
    rw [hcall]
    rw [Finds, behind_zero_cons_cons ht hl] at hfinds
    -- Inside of the parentheses the rules for arguments keep track.
    obtain ⟨depth', h⟩ := tracks_arguments tracks_expression 1 hfinds
    refine ⟨depth', ?_⟩
    rw [List.append_nil]
    show Leads 0 ([t] ++ ([l] ++ Tree.tokensAll (arguments expression vs).trees ++ [])) _
      (arguments expression vs).rest
    rw [List.append_nil]
    exact hlead.append h

/-- An annotation is tracked at every depth, also where it stands free. -/
theorem tracks_annotated (h : isAt .directive ts = true) : Tracks annotated ts := by
  obtain ⟨t, us, rfl, ht⟩ := isAt_iff.1 h
  rintro (- | depth)
  · exact follows_annotated_zero ht
  · exact ((follows_one depth _).seq fun depth' _ ↦
      tracks_when (fun _ ↦ tracks_doCall tracks_expression) depth').node _

/-- **Reading annotations keeps up with the search.** -/
theorem tracks_compilerDirectives (ts : List Token) : Tracks compilerDirectives ts :=
  tracks_many fun _ ↦ tracks_annotated

/-- All annotations in front are read. -/
theorem isAt_rest_compilerDirectives (ts : List Token) :
    isAt .directive (compilerDirectives ts).rest = false := by
  refine many_induction (p := annotated) (motive := fun _ s ↦ isAt .directive s.rest = false)
    (fun _ hstop ↦ hstop) (fun ts hgo hstall ↦ ?_) (fun _ _ _ ih ↦ ih) ts
  obtain ⟨t, us, rfl, -⟩ := isAt_iff.1 hgo
  exact absurd (((progress_one (List.cons_ne_nil t us)).seq _).node _) hstall

/-- Reading annotations makes nothing but annotations. -/
theorem kind_of_mem_compilerDirectives (ts : List Token) :
    ∀ t ∈ (compilerDirectives ts).trees, t.kind = .compilerDirective := by
  have hround (ts : List Token) : ∀ t ∈ (annotated ts).trees, t.kind = .compilerDirective :=
    fun t ht ↦ List.mem_singleton.1 ht ▸ rfl
  refine many_induction (p := annotated) (motive := fun _ s ↦ ∀ t ∈ s.trees,
    t.kind = .compilerDirective) (fun _ _ ↦ nofun) (fun ts _ _ ↦ hround ts)
    (fun ts _ _ ih t ht ↦ ?_) ts
  exact (List.mem_append.1 ht).elim (hround ts t) (ih t)

/-! ### Where the two come to -/

/-- The search never goes back. -/
theorem length_afterParens_cons_le (depth : Nat) (t : Token) (us : List Token) :
    (afterParens depth (t :: us)).length ≤ us.length := by
  rw [afterParens]
  split
  · exact length_afterParens_le _ us
  · split
    · exact Nat.le_refl _
    · exact length_afterParens_le _ us
  · exact length_afterParens_le _ us

/-- Nor does the one that starts at the front. -/
theorem length_afterDirectives_le (ts : List Token) : (afterDirectives ts).length ≤ ts.length := by
  fun_induction afterDirectives ts with
  | case1 => exact Nat.le_refl _
  | case2 t us ht hparen ih =>
    exact Nat.le_trans ih (Nat.le_succ_of_le (length_afterParens_le 0 us))
  | case3 t us ht hparen ih => exact Nat.le_succ_of_le ih
  | case4 => exact Nat.le_refl _

/-- The search stops where it is out of all parentheses and in front of no annotation. -/
theorem behind_cons_eq_iff (ht : t.kind ≠ .directive) :
    behind depth (t :: us) = t :: us ↔ depth = 0 := by
  refine ⟨fun h ↦ ?_, ?_⟩
  · by_contra hdepth
    have hlength := congrArg List.length h
    rw [behind, if_neg hdepth, List.length_cons] at hlength
    have hparens := length_afterParens_cons_le depth t us
    have hdirectives := length_afterDirectives_le (afterParens depth (t :: us))
    omega
  · rintro rfl
    exact behind_zero_of_avoids (avoids_cons.2 (by simpa using ht))

/-- **Reading the annotations in front of a declaration never gets past the place that the search
has found**, and it gets there if all parentheses are closed again, and only then. -/
theorem exists_of_annotations (h : isAtAny declarationWords (afterDirectives ts) = true) :
    ∃ t us, (compilerDirectives ts).rest = t :: us ∧
      closed (Tree.tokensAll (compilerDirectives ts).trees) ≤
        opened (Tree.tokensAll (compilerDirectives ts).trees) ∧
      (afterDirectives ts = t :: us ↔ opened (Tree.tokensAll (compilerDirectives ts).trees) =
        closed (Tree.tokensAll (compilerDirectives ts).trees)) := by
  have hbehind : behind 0 ts = afterDirectives ts := by rw [behind, if_pos rfl]
  have hfinds : Finds 0 ts := by rwa [Finds, hbehind]
  have htokens := (compilerDirectives ts).tokens_append_rest
  have hstop := isAt_rest_compilerDirectives ts
  obtain ⟨depth, hlead⟩ := tracks_compilerDirectives ts 0 hfinds
  have hcount := hlead.count
  have heq := hlead.behind_eq
  rw [htokens, hbehind] at heq
  rcases hrest : (compilerDirectives ts).rest with - | ⟨t, us⟩
  · -- at the end there is no declaration to be found
    have hnone : behind depth [] = [] := by
      rw [behind, afterParens, ite_self, afterDirectives]
    rw [hrest, hnone] at heq
    rw [← heq] at h
    exact absurd h Bool.false_ne_true
  · rw [hrest, isAt_cons, beq_eq_false_iff_ne] at hstop
    refine ⟨t, us, rfl, by omega, ?_⟩
    rw [← heq, hrest, behind_cons_eq_iff hstop]
    omega

end BslLint.Grammar
