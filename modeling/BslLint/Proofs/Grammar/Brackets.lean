import BslLint.Proofs.Grammar.Annotations
import BslLint.Proofs.Grammar.Assignment
import BslLint.Proofs.Grammar.Nesting

/-!
# Balanced parentheses and brackets

Whether parentheses and brackets are balanced is found by a scan that keeps the signs which are due,
the next one first. It looks at nothing but the kinds of tokens, so it can be asked of any run of
them, and also of one that is cut out of an expression. What is derived is balanced
(`Derives.isBalanced`).

Of balanced tokens two things are used: as many parentheses close as open, and nowhere have more
been closed than opened.
-/

namespace BslLint.Grammar

open BslLint.Parser

/-! ### The scan -/

/-- The signs that are due behind a token, given those in front of it. A sign that closes something
has to be the next that is due. -/
def dueAfter? (due : List Token.Kind) : Token.Kind → Option (List Token.Kind)
  | .leftParen => some (.rightParen :: due)
  | .leftBracket => some (.rightBracket :: due)
  | .rightParen => if due.head? = some .rightParen then some due.tail else none
  | .rightBracket => if due.head? = some .rightBracket then some due.tail else none
  | _ => some due

/-- Every sign that opens something is closed by its own, in the opposite order. -/
def IsBalanced (kinds : List Token.Kind) : Prop := kinds.foldlM dueAfter? [] = some []

instance (kinds : List Token.Kind) : Decidable (IsBalanced kinds) :=
  inferInstanceAs (Decidable (_ = _))

variable {due due' : List Token.Kind} {k : Token.Kind} {u v w : List Token} {t : Token}

/-- Other tokens leave what is due. -/
theorem dueAfter?_of_notMem (hk : k ∉ nestingKinds) : dueAfter? due k = some due := by
  simp only [nestingKinds, List.mem_cons, List.not_mem_nil, or_false, not_or] at hk
  unfold dueAfter?
  split <;> simp_all

/-- What opens something makes its partner due, -/
theorem dueAfter?_opening {l r : Token.Kind} (h : IsPair l r) :
    dueAfter? due l = some (r :: due) := by
  obtain ⟨rfl, rfl⟩ | ⟨rfl, rfl⟩ := h <;> rfl

/-- and the partner is due no more when it comes. -/
theorem dueAfter?_closing {l r : Token.Kind} (h : IsPair l r) :
    dueAfter? (r :: due) r = some due := by
  obtain ⟨-, rfl⟩ | ⟨-, rfl⟩ := h <;> rfl

/-! ### What is derived is balanced -/

/-- The scan passes over what is paired. -/
theorem Balanced.foldlM_dueAfter? {kinds : List Token.Kind} (h : Balanced kinds w) :
    ∀ due, (w.map (·.kind)).foldlM dueAfter? due = some due := by
  induction h with
  | nil => exact fun due ↦ rfl
  | token ht _ _ ih =>
    intro due
    rw [List.map_cons, List.foldlM_cons, dueAfter?_of_notMem ht]
    exact ih due
  | @group _ l r u w hpair _ _ ihinside ih =>
    intro due
    rw [List.map_cons, List.foldlM_cons, dueAfter?_opening hpair, List.map_append,
      Option.bind_eq_bind, Option.bind_some, List.foldlM_append, ihinside, List.map_cons]
    show (r.kind :: w.map (·.kind)).foldlM dueAfter? (r.kind :: due) = some due
    rw [List.foldlM_cons, dueAfter?_closing hpair]
    exact ih due

/-- **What is derived is balanced.** -/
theorem Derives.isBalanced {p : Part} {cs : List Tree} (h : Derives p w cs) :
    IsBalanced (w.map (·.kind)) := h.balanced.foldlM_dueAfter? []

/-- No statement ends among tokens that are paired. -/
theorem Balanced.semicolon_notMem {kinds : List Token.Kind} (h : Balanced kinds w) :
    ∀ t ∈ w, t.kind ≠ .semicolon := by
  have hpaired : ∀ {l r : Token.Kind}, IsPair l r → l ≠ .semicolon ∧ r ≠ .semicolon := by
    rintro l r (⟨rfl, rfl⟩ | ⟨rfl, rfl⟩) <;> decide
  induction h with
  | nil => exact fun t ht ↦ absurd ht List.not_mem_nil
  | token ht _ _ ih =>
    refine List.forall_mem_cons.2 ⟨fun hkind ↦ ht ?_, ih⟩
    rw [hkind]
    decide
  | group hpair _ _ ihinside ih =>
    refine List.forall_mem_cons.2 ⟨(hpaired hpair).1, List.forall_mem_append.2 ⟨ihinside, ?_⟩⟩
    exact List.forall_mem_cons.2 ⟨(hpaired hpair).2, ih⟩

/-! ### Parentheses are counted -/

/-- One step of the scan keeps the count. -/
theorem count_of_dueAfter? (h : dueAfter? due t.kind = some due') :
    closed [t] + due'.count .rightParen = opened [t] + due.count .rightParen := by
  have hcounts : closed [t] = (if t.kind = .rightParen then 1 else 0) ∧
      opened [t] = if t.kind = .leftParen then 1 else 0 := by
    constructor <;> simp [closed, opened, List.countP_singleton]
  rw [hcounts.1, hcounts.2]
  unfold dueAfter? at h
  -- One case for each kind that the scan looks at, and one for all others.
  split at h
  next hk =>
    obtain rfl := Option.some.inj h
    simp [hk, Nat.add_comm]
  next hk =>
    obtain rfl := Option.some.inj h
    simp [hk]
  next hk =>
    obtain ⟨hhead, hdue⟩ := Option.ite_none_right_eq_some.1 h
    obtain ⟨rest, rfl⟩ := List.head?_eq_some_iff.1 hhead
    obtain rfl := Option.some.inj hdue
    simp [hk, Nat.add_comm]
  next hk =>
    obtain ⟨hhead, hdue⟩ := Option.ite_none_right_eq_some.1 h
    obtain ⟨rest, rfl⟩ := List.head?_eq_some_iff.1 hhead
    obtain rfl := Option.some.inj hdue
    simp [hk]
  next hleft _ hright _ =>
    obtain rfl := Option.some.inj h
    rw [if_neg hright, if_neg hleft]

/-- What is closed and what is due make up for what is opened. -/
theorem count_of_foldlM (h : (w.map (·.kind)).foldlM dueAfter? due = some due') :
    closed w + due'.count .rightParen = opened w + due.count .rightParen := by
  induction w generalizing due with
  | nil =>
    obtain rfl := Option.some.inj h
    rfl
  | cons t w ih =>
    rw [List.map_cons, List.foldlM_cons] at h
    obtain ⟨mid, hmid, h⟩ := Option.bind_eq_some_iff.1 h
    have hstep := count_of_dueAfter? hmid
    have hrest := ih h
    rw [← List.singleton_append, closed_append, opened_append]
    omega

/-- As many parentheses close as open. -/
theorem IsBalanced.closed_eq (h : IsBalanced (w.map (·.kind))) : closed w = opened w :=
  count_of_foldlM h

/-- Nowhere have more parentheses been closed than opened. -/
theorem IsBalanced.closed_le (h : IsBalanced ((u ++ v).map (·.kind))) : closed u ≤ opened u := by
  rw [IsBalanced, List.map_append, List.foldlM_append] at h
  obtain ⟨due, hdue, -⟩ := Option.bind_eq_some_iff.1 h
  have hcount := count_of_foldlM hdue
  rw [List.count_nil] at hcount
  omega

/-! ### Where an expression ends -/

/-- The scan for accesses passes over parentheses that open. -/
theorem accessesConstant_leftParens {l : List Token} (hl : ∀ s ∈ l, s.kind = .leftParen)
    (ks : List Token.Kind) :
    accessesConstant false (l.map (·.kind) ++ ks) = accessesConstant false ks := by
  induction l with
  | nil => rfl
  | cons s l ih =>
    obtain ⟨hs, hl⟩ := List.forall_mem_cons.1 hl
    rw [List.map_cons, hs, List.cons_append, accessesConstant_plain (by decide), ih hl]

/-- An expression that other tokens begin with goes on where these are an expression up to
parentheses around them: it does not stop in front of the end of a statement. -/
theorem Derives.notMem_endKinds {l r : List Token} {cs ds : List Tree}
    (h : Derives .expression (l ++ (u ++ t :: v ++ r)) cs) (hl : ∀ s ∈ l, s.kind = .leftParen)
    (hu : Derives .expression u ds) : t.kind ∉ endKinds := by
  intro ht
  -- With an access to a constant behind the whole, the scan would have to find it and to stop.
  let ks : List Token.Kind := [.comma, .numberLiteral, .dot]
  have hends : ∀ k ∈ endKinds, accessKinds.contains k = false := by decide
  have hrest : beginsWithAccess ((t :: v ++ r).map (·.kind) ++ ks) = false := hends _ ht
  have hwhole := h.accessesConstant_append fun _ ↦ (rfl : beginsWithAccess ks = false)
  rw [List.map_append, List.append_assoc, accessesConstant_leftParens hl, List.append_assoc,
    List.map_append, List.append_assoc, hu.accessesConstant_append fun _ ↦ hrest, List.cons_append,
    List.map_cons, List.cons_append, accessesConstant_end ht] at hwhole
  exact absurd hwhole (by decide)

/-- **In a module without faults that assigns the tokens inside of some parentheses, these are an
expression themselves**, if they are one with the parentheses. -/
theorem Derives.exists_inside_of_file {l r : List Token} {a e s : Token} {cs : List Tree}
    (h : Derives .expression (l ++ (w ++ r)) cs) (hl : ∀ t ∈ l, t.kind = .leftParen)
    (ha : a.kind = .identifier) (he : e.kind = .equal) (hs : s.kind = .semicolon)
    (hfile : (file (a :: e :: (w ++ [s]))).faults = []) : ∃ ds, Derives .expression w ds := by
  obtain ⟨u, us, ds, hsplit, hu, hend⟩ := exists_derives_of_file ha he hfile
  obtain rfl | ⟨vs, s', rfl⟩ := List.eq_nil_or_concat' us
  · -- The semicolon is no part of an expression.
    rw [List.append_nil] at hsplit
    exact absurd hs (hu.balanced.semicolon_notMem s (by simp [← hsplit]))
  · rw [← List.append_assoc] at hsplit
    obtain ⟨rfl, -⟩ := List.append_inj' hsplit rfl
    cases vs with
    | nil => exact ⟨ds, by rwa [List.append_nil]⟩
    | cons t vs =>
      obtain hnil | ⟨_, _, hcons, ht⟩ := hend
      · exact absurd hnil (by simp)
      · obtain ⟨rfl, -⟩ := List.cons.inj hcons
        exact absurd ht (h.notMem_endKinds hl hu)

end BslLint.Grammar
