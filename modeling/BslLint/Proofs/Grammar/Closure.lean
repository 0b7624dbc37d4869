import BslLint.Proofs.Grammar.Reading
import BslLint.Proofs.Grammar.Unfolding
import Mathlib.Logic.Basic

/-!
# Properties that parsers pass on

A property of parsers that every combinator passes on holds of every rule of the grammar. What a
combinator is allowed to do for that is a matter of what it looks at before it decides:

* `Closed K` is enough for the rules inside of a procedure. A repetition there looks at the next
  token alone (`Near`), and a choice does not depend on tokens behind the ones that it is about
  (`Settled`).
* `FarClosed K` is for runs of procedures and of code, where a choice may look at the kinds of any
  tokens ahead (`ByKind`), and `FullyClosed K` for whole modules.

Some kinds of node are left out, because properties of trees tend to be about them (`isOrdinary`),
and those that stand for declarations are made for whole modules only (`isInner`).
A node for an error may be told by the fault that it comes with. That no parser is without its
equation, and needs no levels, is part of what a property may use of `Parser.fix`.
-/

namespace BslLint

namespace Parser

variable {ahead : List Token → Bool} {p q : Parser}

/-! ### What a condition looks at -/

/-- The condition looks at nothing but the kinds of the tokens ahead. -/
def ByKind (ahead : List Token → Bool) : Prop :=
  ∀ ⦃f : Token → Token⦄, (∀ t, (f t).kind = t.kind) → ∀ ts, ahead (ts.map f) = ahead ts

/-- The condition looks at nothing but the kind of the next token. -/
def Near (ahead : List Token → Bool) : Prop := ∀ ⦃ts us⦄, peek ts = peek us → ahead ts = ahead us

/-- Looking ahead sees the kinds of the tokens alone. -/
theorem look_map {f : Token → Token} (hf : ∀ t, (f t).kind = t.kind) (n : Nat) (ts : List Token) :
    look n (ts.map f) = look n ts := by
  simp only [look, List.getElem?_map, Option.map_map]
  exact congrArg (ts[n]?.map ·) (funext hf)

theorem peek_map {f : Token → Token} (hf : ∀ t, (f t).kind = t.kind) (ts : List Token) :
    peek (ts.map f) = peek ts := look_map hf 0 ts

/-- Within some tokens it does not matter what comes behind them. -/
theorem look_append {n : Nat} {x : List Token} (hn : n < x.length) (y : List Token) :
    look n (x ++ y) = look n x := by
  rw [look, look, List.getElem?_append_left hn]

theorem peek_append {x : List Token} (hx : x ≠ []) (y : List Token) : peek (x ++ y) = peek x :=
  look_append (List.length_pos_iff.2 hx) y

/-- What looks at the next kind looks at kinds. -/
theorem Near.byKind (h : Near ahead) : ByKind ahead := fun _ hf ts ↦ h (peek_map hf ts)

theorem near_isAt (k : Token.Kind) : Near (isAt k) := fun _ _ h ↦ by rw [isAt, isAt, h]

theorem near_isAtAny (kinds : List Token.Kind) : Near (isAtAny kinds) := fun _ _ h ↦ by
  rw [isAtAny, isAtAny, h]

theorem near_peek (k : Option Token.Kind) : Near (peek · == k) := fun _ _ h ↦ congrArg (· == k) h

theorem near_isEmpty : Near List.isEmpty
  | [], [], _ => rfl
  | _ :: _, _ :: _, _ => rfl

theorem Near.not (h : Near ahead) : Near fun ts ↦ !ahead ts := fun _ _ hpeek ↦
  congrArg Bool.not (h hpeek)

theorem Near.and {ahead' : List Token → Bool} (h : Near ahead) (h' : Near ahead') :
    Near fun ts ↦ ahead ts && ahead' ts := fun _ _ hpeek ↦ congrArg₂ Bool.and (h hpeek) (h' hpeek)

theorem Near.or {ahead' : List Token → Bool} (h : Near ahead) (h' : Near ahead') :
    Near fun ts ↦ ahead ts || ahead' ts := fun _ _ hpeek ↦ congrArg₂ Bool.or (h hpeek) (h' hpeek)

theorem ByKind.and {ahead' : List Token → Bool} (h : ByKind ahead) (h' : ByKind ahead') :
    ByKind fun ts ↦ ahead ts && ahead' ts := fun _ hf ts ↦ congrArg₂ Bool.and (h hf ts) (h' hf ts)

theorem ByKind.not (h : ByKind ahead) : ByKind fun ts ↦ !ahead ts := fun _ hf ts ↦
  congrArg Bool.not (h hf ts)

theorem byKind_look (n : Nat) (test : Option Token.Kind → Bool) :
    ByKind fun ts ↦ test (look n ts) := fun _ hf ts ↦ congrArg test (look_map hf n ts)

/-- What is read without a fault, up to a token that is left, settles the choice: what comes behind
that token makes no difference to it. -/
def Settled (ahead : List Token → Bool) (p q : Parser) : Prop :=
  ∀ ⦃x y r : List Token⦄ ⦃cs : List Tree⦄, r ≠ [] → (ifAhead ahead p q).Reads (x ++ y) cs (r ++ y) →
    ahead (x ++ y) = ahead x

/-- What has been read in front of a longer rest has been read in front of the shorter one. -/
theorem exists_eq_append {α : Type} {x y u v : List α} (h : x ++ y = u ++ v)
    (hle : y.length ≤ v.length) : ∃ z, v = z ++ y ∧ x = u ++ z := by
  obtain ⟨z, rfl, rfl⟩ | ⟨z, rfl, rfl⟩ := List.append_eq_append_iff.1 h
  · rw [List.length_append] at hle
    obtain rfl := List.length_eq_zero_iff.1 (by omega : z.length = 0)
    exact ⟨[], rfl, by rw [List.append_nil, List.append_nil]⟩
  · exact ⟨z, rfl, rfl⟩

/-- Where a token is left, one was there. -/
theorem Reads.ne_nil {x y r : List Token} {cs : List Tree} (hr : r ≠ [])
    (h : p.Reads (x ++ y) cs (r ++ y)) : x ≠ [] := by
  rintro rfl
  have hle := h.length_le
  have hpos := List.length_pos_iff.2 hr
  rw [List.length_append, List.nil_append] at hle
  omega

/-- The next token is the first that is read, so a choice by it is settled. -/
theorem Near.settled (h : Near ahead) (p q : Parser) : Settled ahead p q :=
  fun _ y _ _ hr hread ↦ h (peek_append (hread.ne_nil hr) y)

/-! ### Closed properties -/

/-- Whether nodes of a kind are like most: all kinds but those of tokens, of files, of procedures,
of expressions, of the names of types and of errors. -/
def isOrdinary : NodeKind → Bool
  | .token | .file | .sub | .expression | .typeName | .error => false
  | _ => true

/-- Whether a node of a kind stands for a declaration, or for the head of one. -/
def isDeclaration : NodeKind → Bool
  | .moduleVar | .procedure | .procDeclaration | .function | .funcDeclaration => true
  | _ => false

/-- Whether nodes of a kind are like most and stand inside of procedures. -/
def isInner (k : NodeKind) : Bool := isOrdinary k && !isDeclaration k

theorem isOrdinary_of_isInner {k : NodeKind} (h : isInner k = true) : isOrdinary k = true :=
  (Bool.and_eq_true_iff.1 h).1

theorem isOrdinary_of_isDeclaration {k : NodeKind} (h : isDeclaration k = true) :
    isOrdinary k = true := by
  cases k <;> first | rfl | exact nomatch h

/-- Combinators pass the property on, as far as they occur inside of procedures. -/
structure Closed (K : Parser → Prop) : Prop where
  nothing : K nothing
  one : K one
  missing : ∀ wanted, K (missing wanted)
  seq : ∀ {p q}, K p → K q → K (p ++ q)
  node : ∀ {k p}, isInner k = true → K p → K (node k p)
  error : ∀ {p : Parser}, (∀ ts, (p ts).faults ≠ []) → K p → K (Parser.node .error p)
  typeName : K (when (isAt .identifier) (Parser.node .typeName Parser.one))
  select : ∀ {choice : Option Token.Kind → Parser},
    (∀ k, K (Parser.ifAhead (peek · == k) (choice k) Parser.nothing)) → K (select choice)
  ifAhead : ∀ {ahead p q}, ByKind ahead → Settled ahead p q → K p → K q → K (ifAhead ahead p q)
  many : ∀ {ahead p}, Near ahead → K p → K (many ahead p)
  fix : ∀ {f : Parser → Parser},
    (∀ p q ts, AgreeBelow ts.length p q → f p ts = f q ts) → (∀ q, K q → K (f q)) → K (fix f)

namespace Closed

variable {K : Parser → Prop} (h : Closed K)

include h

/-- A choice by the next token is settled. -/
theorem choice (hahead : Near ahead) (hp : K p) (hq : K q) : K (Parser.ifAhead ahead p q) :=
  h.ifAhead hahead.byKind (hahead.settled p q) hp hq

theorem when (hahead : Near ahead) (hp : K p) : K (Parser.when ahead p) :=
  h.choice hahead hp h.nothing

/-- What is chosen by the next token need not rely on it. -/
theorem select_of_forall {choice : Option Token.Kind → Parser} (hc : ∀ k, K (choice k)) :
    K (Parser.select choice) :=
  h.select fun k ↦ h.when (near_peek k) (hc k)

/-- A node that stands for something missing. -/
theorem error_missing (wanted : Expectation) : K (Parser.node .error (Parser.missing wanted)) :=
  h.error (fun _ ↦ List.cons_ne_nil _ _) (h.missing wanted)

theorem eat (k : Token.Kind) : K (Parser.eat k) := h.when (near_isAt k) h.one

theorem expect (k : Token.Kind) : K (Parser.expect k) := h.choice (near_isAt k) h.one (h.missing _)

theorem expectName (wanted : Expectation) : K (Parser.expectName wanted) :=
  h.choice (near_isAt _) h.one (h.missing wanted)

theorem commaSeparated (hp : K p) : K (Parser.commaSeparated p) :=
  h.seq hp (h.many (near_isAt _) (h.seq h.one hp))

end Closed

/-- Combinators pass the property on, whatever they look at ahead. -/
structure FarClosed (K : Parser → Prop) : Prop extends Closed K where
  far_ifAhead : ∀ {ahead p q}, ByKind ahead → K p → K q → K (Parser.ifAhead ahead p q)
  far_many : ∀ {ahead p}, ByKind ahead → K p → K (Parser.many ahead p)

/-- A condition may look as far ahead as it likes. -/
theorem FarClosed.far_when {K : Parser → Prop} (h : FarClosed K) (hahead : ByKind ahead)
    (hp : K p) : K (Parser.when ahead p) := h.far_ifAhead hahead hp h.nothing

/-- Combinators pass the property on, and declarations have nothing special about them. -/
structure FullyClosed (K : Parser → Prop) : Prop extends FarClosed K where
  declaration : ∀ {k p}, isDeclaration k = true → K p → K (Parser.node k p)

/-! ### Invariants -/

/-- What has to hold of a property of answers for every parser to keep it that makes only nodes of
admitted kinds. -/
structure Invariant (admitted : NodeKind → Prop) (P : List Tree → List Fault → Prop) : Prop where
  /-- It holds where nothing is read. -/
  nothing : P [] []
  /-- It holds of every token. -/
  leaf : ∀ t, P [.leaf t] []
  /-- It holds of every fault. -/
  fault : ∀ f, P [] [f]
  /-- It holds of two answers together. -/
  append : ∀ {cs ds fs gs}, P cs fs → P ds gs → P (cs ++ ds) (fs ++ gs)
  /-- It holds of an answer below a node. -/
  node : ∀ {k cs fs}, admitted k → P cs fs → P [.node k cs] fs

/-- Whatever a parser is given, the property holds of the trees that it makes and the faults that it
meets. -/
def Keeps (P : List Tree → List Fault → Prop) (p : Parser) : Prop :=
  ∀ ts, P (p ts).trees (p ts).faults

namespace Invariant

variable {admitted : NodeKind → Prop} {P : List Tree → List Fault → Prop}
  (h : Invariant admitted P)

include h

theorem keeps_one : Keeps P one
  | [] => h.nothing
  | t :: _ => h.leaf t

theorem keeps_node {k : NodeKind} (hk : admitted k) (hp : Keeps P p) : Keeps P (Parser.node k p) :=
  fun ts ↦ h.node hk (hp ts)

omit h in
/-- Whichever way is chosen, the invariant is kept. -/
theorem keeps_ifAhead (hp : Keeps P p) (hq : Keeps P q) : Keeps P (Parser.ifAhead ahead p q) := by
  intro ts
  unfold Parser.ifAhead
  split
  · exact hp ts
  · exact hq ts

theorem keeps_many (hp : Keeps P p) : Keeps P (Parser.many ahead p) :=
  many_induction (motive := fun _ s ↦ P s.trees s.faults) (fun _ _ ↦ h.nothing)
    (fun ts _ _ ↦ hp ts) fun ts _ _ ih ↦ h.append (hp ts) ih

/-- A parser that may use itself keeps what each of its levels passes on. -/
theorem keeps_fix {f : Parser → Parser} (hf : ∀ q, Keeps P q → Keeps P (f q)) :
    Keeps P (Parser.fix f) := by
  have hnested : ∀ depth, Keeps P (nested f depth) := by
    intro depth
    induction depth with
    | zero => exact hf _ fun _ ↦ h.nothing
    | succ depth ih => exact hf _ ih
  exact fun ts ↦ hnested ts.length ts

/-- **Every parser keeps an invariant.** The names of types are left to the caller, and so are the
nodes of errors, which come with a fault. -/
theorem fullyClosed (hord : ∀ k, isOrdinary k = true → admitted k)
    (herror : ∀ {cs fs}, fs ≠ [] → P cs fs → P [.node .error cs] fs)
    (htype : Keeps P (when (isAt .identifier) (Parser.node .typeName one))) :
    FullyClosed (Keeps P) where
  nothing _ := h.nothing
  one := h.keeps_one
  missing _ _ := h.fault _
  seq hp hq ts := h.append (hp ts) (hq _)
  node hk hp := h.keeps_node (hord _ (isOrdinary_of_isInner hk)) hp
  error hfaults hp ts := herror (hfaults ts) (hp ts)
  typeName := htype
  select hc ts := by
    have hchoice := hc (peek ts) ts
    rwa [ifAhead_pos (beq_self_eq_true (peek ts))] at hchoice
  ifAhead _ _ hp hq := keeps_ifAhead hp hq
  many _ hp := h.keeps_many hp
  fix _ hf := h.keeps_fix hf
  far_ifAhead _ hp hq := keeps_ifAhead hp hq
  far_many _ hp := h.keeps_many hp
  declaration hk hp := h.keeps_node (hord _ (isOrdinary_of_isDeclaration hk)) hp

/-- The same where the nodes of names of types and of errors are like others. -/
theorem fullyClosed_of_admitted (hord : ∀ k, isOrdinary k = true → admitted k)
    (htype : admitted .typeName) (herror : admitted .error) : FullyClosed (Keeps P) :=
  h.fullyClosed hord (fun _ ↦ h.node herror)
    (keeps_ifAhead (h.keeps_node htype h.keeps_one) fun _ ↦ h.nothing)

/-- What has to hold only where there are no faults. -/
theorem withoutFaults : Invariant admitted fun cs fs ↦ fs = [] → P cs fs where
  nothing _ := h.nothing
  leaf t _ := h.leaf t
  fault _ := nofun
  append hcs hds hfaults :=
    h.append (hcs (List.append_eq_nil_iff.1 hfaults).1) (hds (List.append_eq_nil_iff.1 hfaults).2)
  node hk hcs hfaults := h.node hk (hcs hfaults)

end Invariant

end Parser

end BslLint
