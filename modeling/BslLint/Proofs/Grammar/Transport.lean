import BslLint.Proofs.Grammar.Rules
import BslLint.Proofs.Syntax.Relabelling

/-!
# The parser does not look at texts and places

What a parser does is decided by the kinds of the tokens. So it does the same on tokens of the same
kinds: the trees, the faults and what is left are those from before with other tokens in them
(`file_map`). This is one more property that every combinator passes on.
-/

namespace BslLint

variable {f : Token → Token}

/-- The fault with another token found. -/
def Fault.relabel (f : Token → Token) (e : Fault) : Fault := { e with found := e.found.map f }

/-- Calls for other tokens make the same trees of them. -/
theorem TreeBuilder.Makes.relabel {xs : List (Call Fault)} {cs : List Tree} {es : List Fault}
    (h : Makes xs cs es) : Makes (xs.map (Call.map f (Fault.relabel f))) (Tree.relabelAll f cs)
      (es.map (Fault.relabel f)) := by
  induction h with
  | nothing => exact .nothing
  | token t => exact .token (f t)
  | error e => exact .error (e.relabel f)
  | append _ _ hx hy =>
    rw [List.map_append, Tree.relabelAll_append, List.map_append]
    exact hx.append hy
  | node k _ h =>
    rw [List.map_cons, List.map_append]
    exact h.node k

/-- The answer with `f t` in place of the token `t`. -/
def Step.relabel {ts : List Token} (f : Token → Token) (s : Step ts) : Step (ts.map f) where
  trees := Tree.relabelAll f s.trees
  faults := s.faults.map (Fault.relabel f)
  calls := s.calls.map (.map f (Fault.relabel f))
  rest := s.rest.map f
  tokens_append_rest := by
    rw [Tree.tokensAll_relabelAll, ← List.map_append, s.tokens_append_rest]
  makes := s.makes.relabel

/-- An answer that goes on is relabelled step by step. -/
theorem Step.relabel_andThen {ts : List Token} (s : Step ts) (t : Step s.rest) :
    (s.andThen t).relabel f = (s.relabel f).andThen (t.relabel f) := by
  simp only [relabel, andThen, Tree.relabelAll_append, List.map_append]

theorem Step.relabel_wrap {ts : List Token} (s : Step ts) (k : NodeKind) :
    (s.wrap k).relabel f = (s.relabel f).wrap k := by
  simp only [relabel, wrap, List.map_cons, List.map_append]
  rfl

namespace Parser

/-- The parser does the same on tokens that `f` has been applied to. -/
def Natural (f : Token → Token) (p : Parser) : Prop := ∀ ts, p (ts.map f) = (p ts).relabel f

variable {p q : Parser} {ahead : List Token → Bool}

theorem natural_seq (hp : Natural f p) (hq : Natural f q) : Natural f (p ++ q) := by
  intro ts
  show (p (ts.map f)).andThen (q (p (ts.map f)).rest) = ((p ts).andThen (q (p ts).rest)).relabel f
  rw [hp ts, Step.relabel_andThen, ← hq]
  rfl

theorem natural_node (hp : Natural f p) (k : NodeKind) : Natural f (node k p) := fun ts ↦
  (congrArg (Step.wrap k) (hp ts)).trans ((p ts).relabel_wrap k).symm

/-- A token is read, whichever it is. -/
theorem natural_one : Natural f one
  | [] => rfl
  | _ :: _ => rfl

/-- A fault tells of the token that it found. -/
theorem natural_missing (wanted : Expectation) : Natural f (missing wanted)
  | [] => rfl
  | _ :: _ => rfl

section

variable (hf : ∀ t, (f t).kind = t.kind)

include hf

/-- The choice looks at kinds, so it is the same. -/
theorem natural_ifAhead (hahead : ByKind ahead) (hp : Natural f p) (hq : Natural f q) :
    Natural f (ifAhead ahead p q) := by
  intro ts
  cases hts : ahead ts with
  | true => rw [ifAhead_pos ((hahead hf ts).trans hts), ifAhead_pos hts, hp]
  | false => rw [ifAhead_neg ((hahead hf ts).trans hts), ifAhead_neg hts, hq]

/-- So is the choice by the next token. -/
theorem natural_select {choice : Option Token.Kind → Parser}
    (hc : ∀ k, Natural f (ifAhead (peek · == k) (choice k) nothing)) :
    Natural f (select choice) := by
  intro ts
  have hat : (peek ts == peek ts) = true := beq_self_eq_true _
  have hat' : (peek (ts.map f) == peek ts) = true := by rw [peek_map hf]; exact hat
  have hchoice := hc (peek ts) ts
  rw [ifAhead_pos hat', show ifAhead (peek · == peek ts) _ _ ts = _ from ifAhead_pos hat] at hchoice
  show choice (peek (ts.map f)) (ts.map f) = (choice (peek ts) ts).relabel f
  rw [peek_map hf, hchoice]

/-- The rounds are the same, and they are as long. -/
theorem natural_many (hahead : ByKind ahead) (hp : Natural f p) : Natural f (many ahead p) := by
  have hlength (ts : List Token) : (p (ts.map f)).rest.length < (ts.map f).length ↔
      (p ts).rest.length < ts.length := by
    rw [hp, List.length_map]
    exact iff_of_eq (congrArg (· < ts.length) (List.length_map _))
  refine many_induction (motive := fun ts s ↦ many ahead p (ts.map f) = s.relabel f)
    (fun ts hstop ↦ many_of_stop ((hahead hf ts).trans hstop)) (fun ts hgo hstall ↦ ?_)
    (fun ts hgo hlt ih ↦ ?_)
  · rw [many_of_stall ((hahead hf ts).trans hgo) (mt (hlength ts).1 hstall), hp]
  · rw [many_of_go ((hahead hf ts).trans hgo) ((hlength ts).2 hlt), Step.relabel_andThen, ← ih, hp]
    rfl

omit hf in
/-- A parser that uses itself does so on shorter lists, which are as short with other tokens. -/
theorem natural_fix {g : Parser → Parser} (hg : ∀ q, Natural f q → Natural f (g q)) :
    Natural f (fix g) := by
  have hnested : ∀ depth, Natural f (nested g depth) := by
    intro depth
    induction depth with
    | zero => exact hg _ fun _ ↦ rfl
    | succ depth ih => exact hg _ ih
  intro ts
  show nested g (ts.map f).length (ts.map f) = _
  rw [List.length_map]
  exact hnested ts.length ts

/-- **No parser looks at more than kinds.** -/
theorem fullyClosed_natural : FullyClosed (Natural f) where
  nothing _ := rfl
  one := natural_one
  missing := natural_missing
  seq := natural_seq
  node _ hp := natural_node hp _
  error _ hp := natural_node hp _
  typeName := natural_ifAhead hf (near_isAt _).byKind (natural_node natural_one _) fun _ ↦ rfl
  select := natural_select hf
  ifAhead hahead _ := natural_ifAhead hf hahead
  many hahead := natural_many hf hahead.byKind
  fix _ := natural_fix
  far_ifAhead := natural_ifAhead hf
  far_many := natural_many hf
  declaration _ hp := natural_node hp _

end

end Parser

namespace Grammar

open BslLint.Parser

variable (hf : ∀ t, (f t).kind = t.kind)

include hf

theorem natural_expression : Natural f expression :=
  closed_expression (fullyClosed_natural hf).toClosed fun hp ↦ natural_node hp _

theorem natural_sub : Natural f sub :=
  natural_node (closed_procedure_or_function (fullyClosed_natural hf) (natural_expression hf)) _

/-- In a file the runs of procedures and of code are the same. -/
theorem natural_runs : Natural f runs := by
  have hclosed := fullyClosed_natural hf
  have hcode : Natural f fileCodeBlock :=
    closed_fileCodeBlock hclosed.toFarClosed (natural_expression hf)
  have hrun : Natural f run :=
    closed_run hclosed.toFarClosed (natural_expression hf)
      (hclosed.far_when byKind_atSub (natural_sub hf))
  have hempty (ts : List Token) : (ts.map f).isEmpty = ts.isEmpty := by cases ts <;> rfl
  have hfrom : ∀ coded ts, runsFrom coded (ts.map f) = (runsFrom coded ts).relabel f := by
    intro coded ts
    -- The runs go by the recursion of the reader, which ends where a run reads nothing.
    fun_induction runsFrom coded ts with
    | case1 ts hts =>
      rw [runsFrom, if_pos (by rwa [hempty]), if_pos rfl]
      rfl
    | case2 coded ts hts hcoded =>
      rw [runsFrom, if_pos (by rwa [hempty]), if_neg hcoded, hcode]
    | case3 coded ts hts s hs ih =>
      rw [runsFrom, if_neg (by rwa [hempty]), Step.relabel_andThen, ← ih, hrun, byKind_atSub hf]
      exact if_pos (by simpa [Step.relabel] using hs)
    | case4 coded ts hts s hs =>
      rw [runsFrom, if_neg (by rwa [hempty]), hrun]
      exact if_neg (by simpa [Step.relabel] using hs)
  exact hfrom false

/-- **The tree of a file is that of the kinds of its tokens**, with these tokens in it. -/
theorem file_map (ts : List Token) : file (ts.map f) = (file ts).relabel f :=
  natural_node (closed_moduleVars_runs (fullyClosed_natural hf) (natural_expression hf)
    (natural_runs hf)) _ ts

end Grammar

end BslLint
