import BslLint.Grammar.Parser

/-!
# How combinators run

One lemma for each combinator says what its answer is put together from, and `many_induction` does
it for repetitions. **Progress**, `Parser.Progress p ts`, says that something is read at `ts`. It is
a statement about one list of tokens, because most parsers read nothing at some place.
-/

namespace BslLint.Parser

variable {p q : Parser} {ts : List Token}

/-! ### The parts of an answer -/

@[simp]
theorem trees_seq (p q : Parser) (ts : List Token) :
    ((p ++ q) ts).trees = (p ts).trees ++ (q (p ts).rest).trees := rfl

@[simp]
theorem faults_seq (p q : Parser) (ts : List Token) :
    ((p ++ q) ts).faults = (p ts).faults ++ (q (p ts).rest).faults := rfl

@[simp]
theorem rest_seq (p q : Parser) (ts : List Token) : ((p ++ q) ts).rest = (q (p ts).rest).rest := rfl

@[simp]
theorem trees_node (k : NodeKind) (p : Parser) (ts : List Token) :
    (node k p ts).trees = [.node k (p ts).trees] := rfl

@[simp]
theorem faults_node (k : NodeKind) (p : Parser) (ts : List Token) :
    (node k p ts).faults = (p ts).faults := rfl

@[simp]
theorem rest_node (k : NodeKind) (p : Parser) (ts : List Token) :
    (node k p ts).rest = (p ts).rest := rfl

/-- The condition chooses the first parser where it holds, -/
theorem ifAhead_pos {ahead : List Token → Bool} (h : ahead ts = true) :
    ifAhead ahead p q ts = p ts := if_pos h

/-- and the second where it does not. -/
theorem ifAhead_neg {ahead : List Token → Bool} (h : ahead ts = false) :
    ifAhead ahead p q ts = q ts := if_neg (by rw [h]; exact Bool.false_ne_true)

variable {ahead : List Token → Bool}

/-- It does not matter how parsers that follow each other are bracketed. -/
theorem seq_assoc (p q r : Parser) : p ++ q ++ r = p ++ (q ++ r) := by
  funext ts
  show (((p ts).andThen _).andThen _) = (p ts).andThen (Step.andThen _ _)
  simp only [Step.andThen, List.append_assoc]
  rfl

/-- A parser under a condition matters only where the condition holds. -/
theorem when_congr (h : ∀ ts, ahead ts = true → p ts = q ts) : when ahead p = when ahead q := by
  funext ts
  cases hat : ahead ts with
  | false => rw [when, when, ifAhead_neg hat, ifAhead_neg hat]
  | true => rw [when, when, ifAhead_pos hat, ifAhead_pos hat, h ts hat]

/-! ### Rounds of a repetition -/

/-- A repetition ends where its condition does not hold. -/
theorem many_of_stop (h : ahead ts = false) : many ahead p ts = .start ts := by
  rw [many, manyFrom, if_neg (by rw [h]; exact Bool.false_ne_true)]

/-- A round that has read something is followed by the others. -/
theorem many_of_go (h : ahead ts = true) (hp : (p ts).rest.length < ts.length) :
    many ahead p ts = (p ts).andThen (many ahead p (p ts).rest) := by
  rw [many, manyFrom, if_pos h]
  exact if_pos hp

/-- A round that has read nothing is the last. -/
theorem many_of_stall (h : ahead ts = true) (hp : ¬(p ts).rest.length < ts.length) :
    many ahead p ts = p ts := by
  rw [many, manyFrom, if_pos h]
  exact if_neg hp

/-- What holds of every way in which a repetition can end and passes through a round holds of the
repetition. -/
theorem many_induction {motive : (ts : List Token) → Step ts → Prop}
    (stop : ∀ ts, ahead ts = false → motive ts (.start ts))
    (stall : ∀ ts, ahead ts = true → ¬(p ts).rest.length < ts.length → motive ts (p ts))
    (go : ∀ ts, ahead ts = true → (p ts).rest.length < ts.length →
      motive _ (many ahead p (p ts).rest) → motive ts ((p ts).andThen (many ahead p (p ts).rest)))
    (ts : List Token) : motive ts (many ahead p ts) := by
  by_cases h : ahead ts = true
  · by_cases hp : (p ts).rest.length < ts.length
    · rw [many_of_go h hp]
      exact go ts h hp (many_induction stop stall go (p ts).rest)
    · rw [many_of_stall h hp]
      exact stall ts h hp
  · rw [many_of_stop (Bool.eq_false_iff.2 h)]
    exact stop ts (Bool.eq_false_iff.2 h)
termination_by ts.length

/-- The rounds of a repetition run only where its condition holds. -/
theorem many_when (p : Parser) : many ahead (when ahead p) = many ahead p := by
  funext ts
  refine many_induction (motive := fun ts s ↦ s = many ahead p ts)
    (fun ts hstop ↦ (many_of_stop hstop).symm) (fun ts hgo hstall ↦ ?_) (fun ts hgo hlt ih ↦ ?_) ts
  · rw [show when ahead p ts = p ts from ifAhead_pos hgo] at hstall ⊢
    exact (many_of_stall hgo hstall).symm
  · rw [show when ahead p ts = p ts from ifAhead_pos hgo] at hlt ih ⊢
    rw [many_of_go hgo hlt, ih]

/-! ### Progress -/

/-- Something is read. -/
def Progress (p : Parser) (ts : List Token) : Prop := (p ts).rest.length < ts.length

/-- Where a token is left, one is read. -/
theorem progress_one (h : ts ≠ []) : Progress one ts := by
  cases ts with
  | nil => exact absurd rfl h
  | cons t ts => exact Nat.lt_succ_self _

/-- What is read first stays read. -/
theorem Progress.seq (h : Progress p ts) (q : Parser) : Progress (p ++ q) ts :=
  Nat.lt_of_le_of_lt (q (p ts).rest).length_rest_le h

/-- Whatever is read first, a token is read in the end. -/
theorem progress_seq_one (p : Parser) (h : ts ≠ []) : Progress (p ++ one) ts := by
  have hle := (p ts).length_rest_le
  rw [Progress, rest_seq]
  rcases hrest : (p ts).rest with - | ⟨t, us⟩
  · exact List.length_pos_iff.2 h
  · rw [hrest, List.length_cons] at hle
    exact hle

theorem Progress.node (h : Progress p ts) (k : NodeKind) : Progress (Parser.node k p) ts := h

/-- Either way something is read. -/
theorem progress_ifAhead (hp : Progress p ts) (hq : Progress q ts) :
    Progress (ifAhead ahead p q) ts := by
  unfold Progress Parser.ifAhead
  split
  · exact hp
  · exact hq

theorem progress_select {choice : Option Token.Kind → Parser}
    (h : ∀ k, peek ts = k → Progress (choice k) ts) : Progress (select choice) ts := h _ rfl

/-- The first round reads something. -/
theorem Progress.many (hahead : ahead ts = true) (h : Progress p ts) :
    Progress (Parser.many ahead p) ts := by
  rw [Progress, many_of_go hahead h]
  exact Nat.lt_of_le_of_lt (Parser.many ahead p (p ts).rest).length_rest_le h

end BslLint.Parser
