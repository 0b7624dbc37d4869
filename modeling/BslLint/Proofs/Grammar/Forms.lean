import BslLint.Proofs.Grammar.Parts

/-!
# Forms of text and the parsers that accept them

A `Form` tells which tokens a construct of the language consists of and which trees stand for it,
without a word about parsers. Forms are put together by repeating them, with commas or without, and
by leaving them out. A parser accepts a form if it reads whatever is of that form in front of
whatever may come behind it (`Parser.Accepts`), and parsers that repeat accept forms that repeat.
-/

namespace BslLint

namespace Grammar

open BslLint.Parser

/-- Which tokens are of a form, and which trees stand for them. -/
abbrev Form := List Token → List Tree → Prop

namespace Form

/-- A token of one of some kinds, or nothing. -/
inductive Maybe (kinds : List Token.Kind) : Form
  | none : Maybe kinds [] []
  | some {t} (ht : t.kind ∈ kinds) : Maybe kinds [t] [.leaf t]

/-- Any number of items. -/
inductive Repeated (F : Form) : Form
  | nil : Repeated F [] []
  | cons {u v cs ds} (first : F u cs) (others : Repeated F v ds) : Repeated F (u ++ v) (cs ++ ds)

/-- Items with commas between them, at least one. -/
inductive Separated (F : Form) : Form
  | single {u cs} (only : F u cs) : Separated F u cs
  | cons {u c v cs ds} (first : F u cs) (hc : c.kind = .comma) (others : Separated F v ds) :
    Separated F (u ++ c :: v) (cs ++ .leaf c :: ds)

/-- Items below a node; where there are none there is no node. -/
inductive Grouped (kind : NodeKind) (F : Form) : Form
  | none : Grouped kind F [] []
  | some {u v cs ds} (first : F u cs) (others : Repeated F v ds) :
    Grouped kind F (u ++ v) [.node kind (cs ++ ds)]

end Form

/-- What comes next, if anything does, is of one of the kinds. -/
def Meets (kinds : List Token.Kind) (ts : List Token) : Prop := ∀ k, peek ts = some k → k ∈ kinds

variable {kinds kinds' : List Token.Kind} {t : Token} {ts : List Token}

theorem meets_nil : Meets kinds [] := nofun

theorem meets_cons : Meets kinds (t :: ts) ↔ t.kind ∈ kinds :=
  ⟨fun h ↦ h _ rfl, fun h _ hk ↦ Option.some.inj hk ▸ h⟩

theorem Meets.mono (h : Meets kinds ts) (hsub : kinds ⊆ kinds') : Meets kinds' ts :=
  fun k hk ↦ hsub (h k hk)

/-- What is of one of some kinds is of none of the others. -/
theorem Meets.avoids (h : Meets kinds ts) (hkinds : ∀ k ∈ kinds, k ∉ kinds') : Avoids kinds' ts :=
  fun k hk ↦ hkinds k (h k hk)

theorem Meets.isAt_eq_false {kind : Token.Kind} (h : Meets kinds ts) (hkind : kind ∉ kinds) :
    isAt kind ts = false := by
  rw [Bool.eq_false_iff]
  intro hat
  obtain ⟨t, us, rfl, rfl⟩ := isAt_iff.1 hat
  exact hkind (meets_cons.1 h)

end Grammar

namespace Parser

open Grammar Form

/-- The parser reads what is of the form, if what comes behind is as `ends` says. -/
def Accepts (p : Parser) (F : Form) (ends : List Token → Prop) : Prop :=
  ∀ ⦃w cs⦄, F w cs → ∀ ⦃k⦄, ends k → p.Reads (w ++ k) cs k

variable {p : Parser} {F : Form} {ends : List Token → Prop} {ahead : List Token → Bool}

/-- A token that may be left out. -/
theorem accepts_when_one {kinds : List Token.Kind} (hahead : ∀ ts, ahead ts = isAtAny kinds ts) :
    (when ahead one).Accepts (Maybe kinds) (Avoids kinds) := by
  intro w cs h k hk
  cases h with
  | none => exact (reads_when_neg ((hahead k).trans hk.isAtAny)).2 ⟨rfl, rfl⟩
  | some ht =>
    refine (reads_when_pos ?_).2 (reads_one_cons.2 ⟨rfl, rfl⟩)
    rwa [List.singleton_append, hahead, isAtAny_cons, List.contains_eq_mem, decide_eq_true_iff]

/-- A token of a kind may be there or not. -/
theorem accepts_eat (kind : Token.Kind) : (eat kind).Accepts (Maybe [kind]) (Avoids [kind]) := by
  refine accepts_when_one fun ts ↦ ?_
  cases ts with
  | nil => rfl
  | cons t ts => rw [isAt_cons, isAtAny_cons, List.contains_cons, List.contains_nil, Bool.or_false]

/-- In front of each item the parser goes on. -/
structure Continues (ahead : List Token → Bool) (F : Form) (ends : List Token → Prop) : Prop where
  /-- An item has tokens. -/
  ne_nil : ∀ ⦃w cs⦄, F w cs → w ≠ []
  /-- The parser sees that an item comes. -/
  ahead : ∀ ⦃w cs⦄, F w cs → ∀ k, ahead (w ++ k) = true
  /-- An item may come behind an item. -/
  ends : ∀ ⦃w cs⦄, F w cs → ∀ k, ends (w ++ k)

/-- A loop that goes on in front of each item reads all of them. -/
theorem Accepts.many (hp : p.Accepts F ends) (hF : Continues ahead F ends) :
    (many ahead p).Accepts (Repeated F) fun k ↦ ends k ∧ ahead k = false := by
  rintro w cs h k ⟨hends, hstop⟩
  induction h with
  | nil => exact .many_nil hstop
  | @cons u v cs ds first others ih =>
    have hbehind : ends (v ++ k) := by
      cases others with
      | nil => exact hends
      | cons next others =>
        rw [List.append_assoc]
        exact hF.ends next _
    have hpos := List.length_pos_iff.2 (hF.ne_nil first)
    rw [List.append_assoc]
    refine .many_cons (hF.ahead first _) (hp first hbehind) ?_ ih
    simp only [List.length_append]
    omega

/-- Items of which the first makes the parser begin. -/
theorem Accepts.group (hp : p.Accepts F ends) (hF : Continues ahead F ends) (kind : NodeKind) :
    (when ahead (node kind (Parser.many ahead p))).Accepts (Grouped kind F)
      fun k ↦ ends k ∧ ahead k = false := by
  intro w cs h k hk
  cases h with
  | none => exact (reads_when_neg hk.2).2 ⟨rfl, rfl⟩
  | @some u v cs ds first others =>
    have hahead := hF.ahead first (v ++ k)
    rw [← List.append_assoc] at hahead
    exact (reads_when_pos hahead).2 ((hp.many hF (.cons first others) hk).node kind)

/-- A list is read up to an item that no comma follows. -/
theorem Accepts.commaSeparated (hp : p.Accepts F ends)
    (hcomma : ∀ c ts, c.kind = .comma → ends (c :: ts)) :
    (commaSeparated p).Accepts (Separated F) fun k ↦ ends k ∧ isAt .comma k = false := by
  rintro w cs h k ⟨hends, hstop⟩
  -- The parser takes a comma together with the item behind it, the form with what is in front.
  suffices ∃ ds es vs, p.Reads (w ++ k) ds vs ∧
      (Parser.many (isAt .comma) (one ++ p)).Reads vs es k ∧ cs = ds ++ es from reads_seq.2 this
  induction h with
  | single only => exact ⟨_, [], k, hp only hends, .many_nil hstop, (List.append_nil _).symm⟩
  | @cons u c v cs ds first hc others ih =>
    obtain ⟨es, fs, vs, hitem, hothers, rfl⟩ := ih
    have hone := Reads.token c (v ++ k)
    have hlength := hitem.length_le
    rw [List.append_assoc]
    refine ⟨cs, _, c :: (v ++ k), hp first (hcomma c _ hc), ?_, rfl⟩
    refine .many_cons (isAt_iff.2 ⟨c, _, rfl, hc⟩) (hone.seq hitem) ?_ hothers
    exact Nat.lt_succ_of_le hlength

end Parser

end BslLint
