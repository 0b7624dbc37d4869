import BslLint.Grammar.Parse
import BslLint.Proofs.Diagnostic.Order
import BslLint.Proofs.Token.Places
import Mathlib.Data.List.Forall2
import Mathlib.Data.Prod.Lex

/-!
# Tokens stand one behind the other

A position moves on with every character, in the order of lines and columns. Every token has a
character, so it has ended behind the place where it begins, and the next one begins no earlier:
the tokens of a text are `Token.Ordered`. Hence the order of two tokens in the text is that of their
places, whatever stands between them.
-/

namespace BslLint

namespace Position

/-- What positions are compared by: the line, then the column. -/
def key (p : Position) : ℕ ×ₗ ℕ := toLex (p.line, p.column)

variable {p q : Position}

/-- Every character leads to a later place: to the next column, or to the next line. -/
theorem key_lt_step (p : Position) (c : Char) : p.key < (p.step c).key := by
  rw [key, key, Prod.Lex.toLex_lt_toLex, step]
  split
  · exact .inl (Nat.lt_succ_self _)
  · exact .inr ⟨rfl, Nat.lt_succ_self _⟩

theorem key_le_advance (p : Position) (text : List Char) : p.key ≤ (p.advance text).key := by
  induction text generalizing p with
  | nil => exact le_refl _
  | cons c text ih => exact (p.key_lt_step c).le.trans (ih _)

/-- So a text that is not empty leads to one too. -/
theorem key_lt_advance (p : Position) {text : List Char} (h : text ≠ []) :
    p.key < (p.advance text).key := by
  cases text with
  | nil => exact absurd rfl h
  | cons c text => exact (p.key_lt_step c).trans_le (key_le_advance _ text)

theorem line_le_of_key_le (h : p.key ≤ q.key) : p.line ≤ q.line := by
  rw [key, key, Prod.Lex.toLex_le_toLex] at h
  exact h.elim Nat.le_of_lt fun h ↦ Nat.le_of_eq h.1

/-- At different places the offset has no say. -/
theorem le_of_key_lt (h : p.key < q.key) : p.le q = true ∧ q.le p = false := by
  rw [key, key, Prod.Lex.toLex_lt_toLex] at h
  simp only [le, Bool.or_eq_true, Bool.and_eq_true, decide_eq_true_eq, beq_iff_eq,
    Bool.or_eq_false_iff, Bool.and_eq_false_iff, decide_eq_false_iff_not, beq_eq_false_iff_ne]
  simp only at h
  omega

/-- Positions are compared by line, by column and by offset, in this order. -/
theorem le_iff (p q : Position) : p.le q = true ↔ p.line < q.line ∨ p.line = q.line ∧
    (p.column < q.column ∨ p.column = q.column ∧ p.offset ≤ q.offset) := by
  simp [le]

theorem le_trans {p q r : Position} (hpq : p.le q = true) (hqr : q.le r = true) :
    p.le r = true := by
  rw [le_iff] at hpq hqr ⊢
  omega

theorem le_total (p q : Position) : (p.le q || q.le p) = true := by
  rw [Bool.or_eq_true, le_iff, le_iff]
  omega

theorem le_self (p : Position) : p.le p = true := by
  simp [le]

end Position

/-- Diagnostics are compared by where they begin, without the offset. -/
theorem Diagnostic.le_iff_key (d e : Diagnostic) :
    d.le e = true ↔ d.range.start.key ≤ e.range.start.key := by
  rw [Diagnostic.le_iff, Position.key, Position.key, Prod.Lex.toLex_le_toLex]
  rfl

/-! ### The tokens of a text -/

/-- Every token reaches over some text, and ends before the next one begins. -/
structure Token.Ordered (ts : List Token) : Prop where
  /-- A token has ended behind the place where it begins. -/
  width : ∀ t ∈ ts, t.start.key < t.stop.key
  /-- The next token begins where it has ended, or later. -/
  order : ts.Pairwise fun t u ↦ t.stop.key ≤ u.start.key

namespace Token.Ordered

variable {ts us : List Token}

theorem left (h : Ordered (ts ++ us)) : Ordered ts :=
  ⟨fun t ht ↦ h.width t (List.mem_append_left _ ht), (List.pairwise_append.1 h.order).1⟩

theorem right (h : Ordered (ts ++ us)) : Ordered us :=
  ⟨fun t ht ↦ h.width t (List.mem_append_right _ ht), (List.pairwise_append.1 h.order).2.1⟩

/-- The tokens begin one behind the other. -/
theorem starts (h : Ordered ts) : ts.Pairwise fun t u ↦ t.start.key < u.start.key :=
  h.order.imp_of_mem fun ht _ htu ↦ (h.width _ ht).trans_le htu

/-- No token stands twice. -/
theorem nodup (h : Ordered ts) : ts.Nodup :=
  h.starts.imp fun hlt heq ↦ absurd (heq ▸ hlt) (lt_irrefl _)

/-- No token begins in front of the first one. -/
theorem head_start_le (h : Ordered ts) (hne : ts ≠ []) {t : Token} (ht : t ∈ ts) :
    (ts.head hne).start.key ≤ t.start.key := by
  cases ts with
  | nil => exact absurd rfl hne
  | cons u ts =>
    obtain rfl | ht := List.mem_cons.1 ht
    · exact le_refl _
    · exact (List.rel_of_pairwise_cons h.starts ht).le

/-- No token ends behind the last one. -/
theorem le_getLast_stop (h : Ordered ts) (hne : ts ≠ []) {t : Token} (ht : t ∈ ts) :
    t.stop.key ≤ (ts.getLast hne).stop.key := by
  obtain ⟨init, last, rfl⟩ := (List.eq_nil_or_concat' ts).resolve_left hne
  rw [List.getLast_append_singleton]
  rcases List.mem_append.1 ht with hinit | hlast
  · have hle := (List.pairwise_append.1 h.order).2.2 t hinit last List.mem_cons_self
    exact hle.trans (h.width last (List.mem_append_right _ List.mem_cons_self)).le
  · rw [List.mem_singleton.1 hlast]

/-- The last token has ended behind the place where any of them begins. -/
theorem start_lt_lastStop (h : Ordered ts) {t : Token} (ht : t ∈ ts) :
    t.start.key < (lastStop ts).key := by
  have hne := List.ne_nil_of_mem ht
  have hlast : lastStop ts = (ts.getLast hne).stop := by
    rw [lastStop, List.getLast?_eq_some_getLast hne]
    rfl
  rw [hlast]
  exact (h.width t ht).trans_le (h.le_getLast_stop hne ht)

end Token.Ordered

/-- No lexeme is empty. -/
theorem text_ne_nil_of_mem_lexemes {text : List Char} {l : Lexeme} (h : l ∈ lexemes text) :
    l.text ≠ [] := by
  obtain ⟨before, after, hsplit⟩ := List.append_of_mem h
  obtain ⟨c, r, hl, -⟩ := exists_head_of_lexemes hsplit
  rw [hl]
  exact List.cons_ne_nil c r

/-- Pieces of text that are not empty are placed one behind the other. -/
theorem Scan.ordered_place {ls : List Lexeme} (h : ∀ l ∈ ls, l.text ≠ []) (p : Position) :
    Token.Ordered (place p ls).tokens ∧ ∀ t ∈ (place p ls).tokens, p.key ≤ t.start.key := by
  induction ls generalizing p with
  | nil => exact ⟨⟨nofun, .nil⟩, nofun⟩
  | cons l ls ih =>
    obtain ⟨hl, hls⟩ := List.forall_mem_cons.1 h
    obtain ⟨⟨hwidth, horder⟩, hstart⟩ := ih hls (p.advance l.text)
    have hlater : ∀ t ∈ (place (p.advance l.text) ls).tokens, p.key ≤ t.start.key := fun t ht ↦
      (p.key_le_advance l.text).trans (hstart t ht)
    obtain ⟨kind, text⟩ := l
    cases kind with
    | token k =>
      refine ⟨⟨List.forall_mem_cons.2 ⟨p.key_lt_advance hl, hwidth⟩, ?_⟩,
        List.forall_mem_cons.2 ⟨le_refl _, hlater⟩⟩
      exact List.pairwise_cons.2 ⟨hstart, horder⟩
    | trivia => exact ⟨⟨hwidth, horder⟩, hlater⟩
    | unknown => exact ⟨⟨hwidth, horder⟩, hlater⟩

/-- **The tokens of a text stand one behind the other.** -/
theorem Scan.ordered_ofText (text : String) : Token.Ordered (ofText text).tokens :=
  (ordered_place (fun _ hl ↦ text_ne_nil_of_mem_lexemes hl) .start).1

/-! ### Sorting two lists alike -/

/-- Lists whose entries correspond and compare alike correspond when they are sorted. -/
theorem forall₂_mergeSort {α β : Type*} {R : α → β → Prop} {r : α → α → Bool} {s : β → β → Bool}
    {xs : List α} {ys : List β} (h : List.Forall₂ R xs ys)
    (hle : ∀ {a b c d}, R a b → R c d → r a c = s b d) :
    List.Forall₂ R (xs.mergeSort r) (ys.mergeSort s) := by
  -- both are projections of one list of pairs, sorted by either component
  obtain ⟨ps, rfl, rfl, hps⟩ : ∃ ps : List (α × β), ps.map Prod.fst = xs ∧ ps.map Prod.snd = ys ∧
      ∀ p ∈ ps, R p.1 p.2 := by
    induction h with
    | nil => exact ⟨[], rfl, rfl, nofun⟩
    | cons hab _ ih =>
      obtain ⟨ps, rfl, rfl, hps⟩ := ih
      exact ⟨(_, _) :: ps, rfl, rfl, List.forall_mem_cons.2 ⟨hab, hps⟩⟩
  have hfst := List.map_mergeSort (r := fun p q : α × β ↦ r p.1 q.1) (s := r) (f := Prod.fst)
    (l := ps) fun _ _ _ _ ↦ rfl
  have hsnd := List.map_mergeSort (r := fun p q : α × β ↦ r p.1 q.1) (s := s) (f := Prod.snd)
    (l := ps) fun p hp q hq ↦ hle (hps p hp) (hps q hq)
  rw [← hfst, ← hsnd, List.forall₂_map_left_iff, List.forall₂_map_right_iff, List.forall₂_same]
  exact fun p hp ↦ hps p ((List.mergeSort_perm ps _).subset hp)

end BslLint
