import BslLint.Fingerprint.Canonical
import BslLint.Grammar.Parse
import BslLint.Proofs.Data.Json
import BslLint.Proofs.Token.Places
import BslLint.Syntax.Traversal
import Mathlib.Data.List.Nodup

/-!
# The canonical form tells trees apart

Two trees have one canonical form exactly if they are isomorphic: they have the same kinds of node
in the same arrangement, and tokens of the same kind with the same text at the leaves. So two blocks
of code with one canonical form are one code, whatever their literals contain.

The hard direction is that the form can be read back. No reader is needed for that: it is enough
that of two trees whose forms begin one text, both end at the same place
(`Tree.isomorphic_of_canonical_append`). What makes an end visible is different for each piece. The
label of a form holds no quote, the digits of a kind are followed by a comma, a text is read by the
reader of strings, and a list of forms ends with a bracket where it would go on with a comma.
-/

namespace BslLint

/-! ### Names and numbers of kinds -/

theorem NodeKind.mem_all (k : NodeKind) : k ∈ all := by
  cases k <;> decide

/-- No two kinds of node have one name, -/
theorem NodeKind.name_injective : Function.Injective name := by
  have hnodup : (all.map name).Nodup := by decide +kernel
  exact fun k l h ↦ List.inj_on_of_nodup_map hnodup (mem_all k) (mem_all l) h

/-- No name ends before its closing quote, and none is the one that tokens are labelled with. -/
theorem NodeKind.name_plain (k : NodeKind) : '"' ∉ k.name.toList ∧ k.name ≠ "type" := by
  have hall : ∀ l ∈ all, '"' ∉ l.name.toList ∧ l.name ≠ "type" := by decide +kernel
  exact hall k (mem_all k)

theorem Token.Kind.mem_all (k : Kind) : k ∈ all := by
  cases k with
  | keyword word => cases word <;> decide
  | _ => decide

/-- and no two kinds of token one number. -/
theorem Token.Kind.code_injective : Function.Injective code :=
  fun k _ h ↦ (List.idxOf_inj (mem_all k)).1 h

/-! ### Ends that can be seen -/

/-- A list ends where something follows that it does not hold. -/
theorem eq_of_append_cons_eq {α : Type*} {a : α} {xs ys r s : List α} (hxs : a ∉ xs) (hys : a ∉ ys)
    (h : xs ++ a :: r = ys ++ a :: s) : xs = ys ∧ r = s := by
  -- where one of the lists ended before the other, the other would hold the sign
  induction xs generalizing ys with
  | nil =>
    cases ys with
    | nil => exact ⟨rfl, (List.cons.inj h).2⟩
    | cons y ys => exact absurd ((List.cons.inj h).1 ▸ List.mem_cons_self) hys
  | cons x xs ih =>
    cases ys with
    | nil => exact absurd ((List.cons.inj h).1 ▸ List.mem_cons_self) hxs
    | cons y ys =>
      obtain ⟨rfl, htail⟩ := List.cons.inj h
      obtain ⟨rfl, hrest⟩ := ih (List.not_mem_of_not_mem_cons hxs)
        (List.not_mem_of_not_mem_cons hys) htail
      exact ⟨rfl, hrest⟩

/-- The digits of a number end where a comma follows. -/
theorem repr_append_comma_inj {m n : Nat} {r s : List Char}
    (h : m.repr.toList ++ ',' :: r = n.repr.toList ++ ',' :: s) : m = n ∧ r = s := by
  rw [Nat.toList_repr, Nat.toList_repr] at h
  have hcomma (n : Nat) : ',' ∉ Nat.toDigits 10 n := fun hmem ↦
    absurd (Nat.isDigit_of_mem_toDigits (by decide) (by decide) hmem) (by decide)
  obtain ⟨hdigits, hrest⟩ := eq_of_append_cons_eq (hcomma m) (hcomma n) h
  have hvalue (n : Nat) : Nat.ofDigitChars 10 (Nat.toDigits 10 n) 0 = n :=
    Nat.ofDigitChars_toDigits (by decide) (by decide)
  exact ⟨by rw [← hvalue m, hdigits, hvalue n], hrest⟩

/-! ### Forms with their labels -/

/-- The beginning of a form: a label in quotes and what is labelled. -/
def labelled (label body : List Char) : List Char := '\x7b' :: '"' :: (label ++ '"' :: body)

/-- A label ends at its closing quote, so it can be told from what is labelled. -/
theorem labelled_append_inj {l m b c r s : List Char} (hl : '"' ∉ l) (hm : '"' ∉ m)
    (h : labelled l b ++ r = labelled m c ++ s) : l = m ∧ b ++ r = c ++ s := by
  simp only [labelled, List.cons_append, List.append_assoc, List.cons.injEq, true_and] at h
  exact eq_of_append_cons_eq hl hm h

namespace Token

/-- The form of a token is a label, a number and a text in quotes. -/
theorem toList_canonical (t : Token) : t.canonical.toList =
    labelled "type".toList (':' :: (t.kind.code.repr.toList ++
      ',' :: ("\"text\":".toList ++ ((Json.quote t.text).toList ++ ['\x7d'])))) := by
  simp [canonical, labelled]

/-- The form of a token tells its kind and its text, whatever follows it. -/
theorem canonical_append_inj {t u : Token} {r s : List Char}
    (h : t.canonical.toList ++ r = u.canonical.toList ++ s) :
    (t.kind = u.kind ∧ t.text = u.text) ∧ r = s := by
  have hplain : '"' ∉ "type".toList := by decide
  rw [toList_canonical, toList_canonical] at h
  have hcode := (labelled_append_inj hplain hplain h).2
  simp only [List.cons_append, List.append_assoc, List.cons.injEq, true_and] at hcode
  obtain ⟨hkind, htext⟩ := repr_append_comma_inj hcode
  obtain ⟨htext, hrest⟩ := Json.quote_append_inj (List.append_cancel_left htext)
  exact ⟨⟨Kind.code_injective hkind, htext⟩, (List.cons.inj hrest).2⟩

end Token

/-! ### Isomorphic trees -/

namespace Tree

mutual

/-- Whether two trees have the same kinds of node in the same arrangement and tokens of the same
kind with the same text at the leaves. -/
def Isomorphic : Tree → Tree → Prop
  | leaf t, leaf u => t.kind = u.kind ∧ t.text = u.text
  | node k cs, node l ds => k = l ∧ AllIsomorphic cs ds
  | leaf _, node _ _ | node _ _, leaf _ => False

/-- Whether two lists are equally long and hold isomorphic trees place by place. -/
def AllIsomorphic : List Tree → List Tree → Prop
  | [], [] => True
  | c :: cs, d :: ds => Isomorphic c d ∧ AllIsomorphic cs ds
  | [], _ :: _ | _ :: _, [] => False

end

/-- What is isomorphic to a node is one of its kind. -/
theorem isomorphic_node {t : Tree} {k : NodeKind} {ds : List Tree} :
    t.Isomorphic (node k ds) ↔ ∃ cs, t = node k cs ∧ AllIsomorphic cs ds := by
  cases t with
  | leaf t => exact ⟨False.elim, nofun⟩
  | node l cs =>
    constructor
    · rintro ⟨rfl, h⟩
      exact ⟨cs, rfl, h⟩
    · rintro ⟨_, heq, h⟩
      cases heq
      exact ⟨rfl, h⟩

theorem allIsomorphic_nil {cs : List Tree} : AllIsomorphic cs [] ↔ cs = [] := by
  cases cs with
  | nil => exact ⟨fun _ ↦ rfl, fun _ ↦ trivial⟩
  | cons c cs => exact ⟨False.elim, nofun⟩

/-- Lists of isomorphic trees are compared from the front. -/
theorem allIsomorphic_cons {cs ds : List Tree} {d : Tree} : AllIsomorphic cs (d :: ds) ↔
    ∃ c cs', cs = c :: cs' ∧ c.Isomorphic d ∧ AllIsomorphic cs' ds := by
  cases cs with
  | nil => exact ⟨False.elim, nofun⟩
  | cons c cs =>
    constructor
    · rintro ⟨hfirst, hothers⟩
      exact ⟨c, cs, rfl, hfirst, hothers⟩
    · rintro ⟨_, _, heq, hfirst, hothers⟩
      cases heq
      exact ⟨hfirst, hothers⟩

theorem allIsomorphic_singleton {cs : List Tree} {d : Tree} :
    AllIsomorphic cs [d] ↔ ∃ c, cs = [c] ∧ c.Isomorphic d := by
  rw [allIsomorphic_cons]
  constructor
  · rintro ⟨c, _, rfl, h, hnil⟩
    rw [allIsomorphic_nil.1 hnil]
    exact ⟨c, rfl, h⟩
  · rintro ⟨c, rfl, h⟩
    exact ⟨c, [], rfl, h, trivial⟩

/-- Isomorphic trees are of one kind, -/
theorem Isomorphic.kind_eq {t u : Tree} (h : t.Isomorphic u) : t.kind = u.kind := by
  cases u with
  | leaf u =>
    cases t with
    | leaf t => rfl
    | node k cs => exact h.elim
  | node k ds =>
    obtain ⟨cs, rfl, -⟩ := isomorphic_node.1 h
    rfl

mutual

/-- and have the same number of tokens. -/
theorem Isomorphic.width_eq : (t u : Tree) → t.Isomorphic u → t.width = u.width
  | leaf _, leaf _, _ => rfl
  | node _ cs, node _ ds, ⟨_, h⟩ => AllIsomorphic.width_eq cs ds h

theorem AllIsomorphic.width_eq : (cs ds : List Tree) → AllIsomorphic cs ds →
    widthAll cs = widthAll ds
  | [], [], _ => rfl
  | c :: cs, d :: ds, ⟨hfirst, hothers⟩ => by
    rw [widthAll, widthAll, Isomorphic.width_eq c d hfirst, AllIsomorphic.width_eq cs ds hothers]

end

/-- The forms of trees that follow another one, each behind a comma. -/
def followers : List Tree → List Char
  | [] => []
  | c :: cs => ',' :: (c.canonical.toList ++ followers cs)

/-- Between forms there are commas, and none in front of the first. -/
theorem toList_canonicalList (cs : List Tree) :
    (canonicalList cs).toList = (followers cs).tail := by
  induction cs with
  | nil => rfl
  | cons c cs ih =>
    cases cs with
    | nil => simp [canonicalList, followers]
    | cons d ds => simp_all [canonicalList, followers]

/-- The form of a node is a label and the forms of its children in brackets. -/
theorem toList_canonical_node (k : NodeKind) (cs : List Tree) : (node k cs).canonical.toList =
    labelled k.name.toList (':' :: '[' :: ((followers cs).tail ++ [']', '\x7d'])) := by
  simp [canonical, labelled, toList_canonicalList]

/-- A form begins with a brace. -/
theorem exists_toList_canonical (t : Tree) : ∃ cs, t.canonical.toList = '\x7b' :: cs := by
  cases t with
  | leaf t => exact ⟨_, t.toList_canonical⟩
  | node k cs => exact ⟨_, toList_canonical_node k cs⟩

/-- The first of several forms has no comma in front of it, and no form begins like the end of a
list. -/
theorem followers_append_of_tail {cs ds : List Tree} {r s : List Char}
    (h : (followers cs).tail ++ ']' :: r = (followers ds).tail ++ ']' :: s) :
    followers cs ++ ']' :: r = followers ds ++ ']' :: s := by
  have hbegin (d : Tree) (r s : List Char) : ']' :: r ≠ d.canonical.toList ++ s := by
    obtain ⟨cs, hcs⟩ := exists_toList_canonical d
    rw [hcs]
    exact fun h ↦ absurd (List.cons.inj h).1 (by decide)
  cases cs with
  | nil =>
    cases ds with
    | nil => exact h
    | cons d ds => exact absurd (h.trans (List.append_assoc ..)) (hbegin d _ _)
  | cons c cs =>
    cases ds with
    | nil => exact absurd (h.symm.trans (List.append_assoc ..)) (hbegin c _ _)
    | cons d ds => exact congrArg (',' :: ·) h

/-- The label of a token is the name of no kind of node. -/
theorem canonical_leaf_append_ne (t : Token) (k : NodeKind) (cs : List Tree) (r s : List Char) :
    t.canonical.toList ++ r ≠ (node k cs).canonical.toList ++ s := by
  intro h
  rw [Token.toList_canonical, toList_canonical_node] at h
  have hname := (labelled_append_inj (by decide) k.name_plain.1 h).1
  exact k.name_plain.2 (String.toList_injective hname.symm)

/-! ### Reading back -/

mutual

/-- Trees whose forms begin one text are isomorphic, and their forms end at the same place. -/
theorem isomorphic_of_canonical_append : (t u : Tree) → (r s : List Char) →
    t.canonical.toList ++ r = u.canonical.toList ++ s → t.Isomorphic u ∧ r = s
  | leaf _, leaf _, _, _, h => Token.canonical_append_inj h
  | leaf t, node l ds, r, s, h => absurd h (canonical_leaf_append_ne t l ds r s)
  | node k cs, leaf u, r, s, h => absurd h.symm (canonical_leaf_append_ne u k cs s r)
  | node k cs, node l ds, r, s, h => by
    rw [toList_canonical_node, toList_canonical_node] at h
    obtain ⟨hname, hbody⟩ := labelled_append_inj k.name_plain.1 l.name_plain.1 h
    simp only [List.cons_append, List.append_assoc, List.cons.injEq, true_and] at hbody
    -- with its commas a list can be read form by form
    obtain ⟨hall, hrest⟩ :=
      allIsomorphic_of_followers_append cs ds _ _ (followers_append_of_tail hbody)
    exact ⟨⟨NodeKind.name_injective (String.toList_injective hname), hall⟩,
      (List.cons.inj hrest).2⟩

/-- Behind the last form a bracket stands where there would be a comma before another one. -/
theorem allIsomorphic_of_followers_append : (cs ds : List Tree) → (r s : List Char) →
    followers cs ++ ']' :: r = followers ds ++ ']' :: s → AllIsomorphic cs ds ∧ r = s
  | [], [], _, _, h => ⟨trivial, (List.cons.inj h).2⟩
  | [], _ :: _, _, _, h => absurd (List.cons.inj h).1 (by decide)
  | _ :: _, [], _, _, h => absurd (List.cons.inj h).1 (by decide)
  | c :: cs, d :: ds, r, s, h => by
    simp only [followers, List.cons_append, List.append_assoc, List.cons.injEq, true_and] at h
    obtain ⟨hfirst, h⟩ := isomorphic_of_canonical_append c d _ _ h
    obtain ⟨hothers, hrest⟩ := allIsomorphic_of_followers_append cs ds r s h
    exact ⟨⟨hfirst, hothers⟩, hrest⟩

end

mutual

/-- Conversely, isomorphic trees have the same form. -/
theorem Isomorphic.canonical_eq : (t u : Tree) → t.Isomorphic u → t.canonical = u.canonical
  | leaf _, leaf _, h => by rw [canonical, canonical, Token.canonical, Token.canonical, h.1, h.2]
  | node k cs, node _ ds, ⟨rfl, h⟩ => String.toList_injective <| by
    rw [toList_canonical_node, toList_canonical_node, AllIsomorphic.followers_eq cs ds h]

theorem AllIsomorphic.followers_eq : (cs ds : List Tree) → AllIsomorphic cs ds →
    followers cs = followers ds
  | [], [], _ => rfl
  | c :: cs, d :: ds, ⟨hfirst, hothers⟩ => by
    rw [followers, followers, Isomorphic.canonical_eq c d hfirst,
      AllIsomorphic.followers_eq cs ds hothers]

end

/-- **The canonical form is faithful.** -/
theorem canonical_eq_iff (t u : Tree) : t.canonical = u.canonical ↔ t.Isomorphic u :=
  ⟨fun h ↦ (isomorphic_of_canonical_append t u [] [] (by rw [h])).1, Isomorphic.canonical_eq t u⟩

end Tree

/-- **Two nodes of parsed texts have one canonical form exactly if what stands below them is
isomorphic.** -/
theorem Document.canonical_forms_agree_iff (text text' : String) :
    ∀ n ∈ (ofText text).nodes, ∀ m ∈ (ofText text').nodes,
      n.tree.canonical = m.tree.canonical ↔ n.tree.Isomorphic m.tree :=
  fun n _ m _ ↦ n.tree.canonical_eq_iff m.tree

/-- Two statements with a literal that looks like the end of a form. -/
theorem Document.moved_statements_are_isomorphic :
    ∃ n ∈ (ofText "А=\"]\x7d\";").nodes, ∃ m ∈ (ofText "Б=1; А = \"]\x7d\" ;").nodes,
      n.kind = .statement ∧ n.tree.canonical = m.tree.canonical ∧ n.tree.Isomorphic m.tree := by
  have hforms : (ofText "А=\"]\x7d\";").nodes.any (fun n ↦
      (ofText "Б=1; А = \"]\x7d\" ;").nodes.any fun m ↦
        n.kind = .statement ∧ n.tree.canonical = m.tree.canonical) = true := by
    simp only [ofText_eq_evaluated]
    decide +kernel
  obtain ⟨n, hn, m, hm, hkind, hforms⟩ := by
    simpa only [List.any_eq_true, decide_eq_true_eq] using hforms
  exact ⟨n, hn, m, hm, hkind, hforms, (canonical_forms_agree_iff _ _ n hn m hm).1 hforms⟩

end BslLint
