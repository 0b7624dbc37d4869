import BslLint.Proofs.Syntax.Below
import BslLint.Proofs.Syntax.Standing
import BslLint.Proofs.Token.Order
import BslLint.Syntax.Builder

/-!
# What a builder builds

A builder takes calls in any order and number. Which nodes there will be is told by the calls alone
(`Builder.begun`): each start and each token begins one, it gets the next number, and it goes below
the node that is open at that time, if there is one.

A builder itself keeps trees and no numbers. But from the trees that are finished and the nodes that
are open one can tell in which order they were begun and below which node (`Builder.noted`), and
every call keeps this in step with the calls (`Builder.noted_call`). So the finished document has
the nodes that were begun, the children that were begun below each of them, and the tokens that were
added.
-/

namespace BslLint

open BslLint.TreeBuilder (Call)

/-- What a node says for itself: what it stands for, or its token. -/
def Tree.content : Tree → NodeKind ⊕ Token
  | leaf t => .inr t
  | node k _ => .inl k

namespace Builder

/-- Does what is asked. -/
def call (b : Builder) : Call SyntaxError → Builder
  | .start kind => b.start kind
  | .finish => b.finish
  | .token t => b.token t
  | .error e => b.error e

/-- The builder after some calls. -/
def after (calls : List (Call SyntaxError)) : Builder := calls.foldl call {}

/-! ### The nodes that are begun -/

/-- A node at the time when it was begun. -/
structure Beginning where
  /-- The number of nodes begun before. -/
  id : Nat
  /-- What was begun. -/
  content : NodeKind ⊕ Token
  /-- The number of the node that was open, if there was one. -/
  parent? : Option Nat

/-- The nodes begun by some calls, if the nodes that are open have the numbers `opens`, the
innermost first, and the next number is `id`. -/
def begun (opens : List Nat) (id : Nat) : List (Call SyntaxError) → List Beginning
  | [] => []
  | .start kind :: calls => ⟨id, .inl kind, opens.head?⟩ :: begun (id :: opens) (id + 1) calls
  | .finish :: calls => begun opens.tail id calls
  | .token t :: calls => ⟨id, .inr t, opens.head?⟩ :: begun opens (id + 1) calls
  | .error _ :: calls => begun opens id calls

/-- All nodes begun by some calls. Without any there will be an empty file. -/
def history (calls : List (Call SyntaxError)) : List Beginning :=
  match begun [] 0 calls with
  | [] => [⟨0, .inl .file, none⟩]
  | b :: bs => b :: bs

mutual

/-- The nodes of a tree as they were begun. -/
def note (parent? : Option Nat) (id : Nat) : Tree → List Beginning
  | .leaf t => [⟨id, .inr t, parent?⟩]
  | .node k cs => ⟨id, .inl k, parent?⟩ :: noteAll (some id) (id + 1) cs

/-- The nodes of some trees as they were begun. -/
def noteAll (parent? : Option Nat) (id : Nat) : List Tree → List Beginning
  | [] => []
  | c :: cs => note parent? id c ++ noteAll parent? (id + c.size) cs

end

/-- Trees behind others are noted behind them. -/
theorem noteAll_append (parent? : Option Nat) (id : Nat) (cs ds : List Tree) :
    noteAll parent? id (cs ++ ds) =
      noteAll parent? id cs ++ noteAll parent? (id + Tree.sizeAll cs) ds := by
  induction cs generalizing id with
  | nil => rfl
  | cons c cs ih =>
    rw [List.cons_append, noteAll, noteAll, ih, Tree.sizeAll, Nat.add_assoc, List.append_assoc]

theorem noteAll_singleton (parent? : Option Nat) (id : Nat) (t : Tree) :
    noteAll parent? id [t] = note parent? id t := by
  rw [noteAll, noteAll, List.append_nil]

/-! ### Builders keep to the calls -/

/-- The number that comes next, where the finished trees have `size` nodes. -/
def next (size : Nat) : List OpenNode → Nat
  | [] => size
  | n :: ns => next size ns + 1 + Tree.sizeAll n.children

/-- The numbers of the open nodes. -/
def opens (size : Nat) : List OpenNode → List Nat
  | [] => []
  | _ :: ns => next size ns :: opens size ns

/-- The nodes of the finished trees and of the open nodes as they were begun. -/
def notedBelow (done : List Tree) : List OpenNode → List Beginning
  | [] => noteAll none 0 done.reverse
  | n :: ns =>
    let id := next (Tree.sizeAll done) ns
    notedBelow done ns ++ ⟨id, .inl n.kind, (opens (Tree.sizeAll done) ns).head?⟩ ::
      noteAll (some id) (id + 1) n.children.reverse

variable (b : Builder)

/-- The number of the next node. -/
def nextId : Nat := next (Tree.sizeAll b.done) b.open_

/-- The numbers of the open nodes, the innermost first. -/
def openIds : List Nat := opens (Tree.sizeAll b.done) b.open_

/-- All nodes so far as they were begun. -/
def noted : List Beginning := notedBelow b.done b.open_

theorem sizeAll_reverse (cs : List Tree) : Tree.sizeAll cs.reverse = Tree.sizeAll cs := by
  induction cs with
  | nil => rfl
  | cons c cs ih =>
    rw [List.reverse_cons, Tree.sizeAll_append, ih, Tree.sizeAll, Tree.sizeAll, Tree.sizeAll]
    omega

/-- A tree that is attached is noted last. -/
theorem noted_attach (t : Tree) : (b.attach t).noted = b.noted ++ note b.openIds.head? b.nextId t ∧
    (b.attach t).openIds = b.openIds ∧ (b.attach t).nextId = b.nextId + t.size := by
  rcases b with ⟨done, _ | ⟨n, ns⟩, errors⟩
  · refine ⟨?_, rfl, ?_⟩
    · show noteAll none 0 (t :: done).reverse = noteAll none 0 done.reverse ++ note none _ t
      rw [List.reverse_cons, noteAll_append, noteAll_singleton, sizeAll_reverse, Nat.zero_add]
      rfl
    · exact Nat.add_comm _ _
  · refine ⟨?_, rfl, ?_⟩
    · show notedBelow done (⟨n.kind, t :: n.children⟩ :: ns) =
        notedBelow done (n :: ns) ++ note (some (next (Tree.sizeAll done) ns)) _ t
      rw [notedBelow, notedBelow, List.reverse_cons, noteAll_append, noteAll_singleton,
        sizeAll_reverse, List.append_assoc, List.cons_append]
      rfl
    · show next (Tree.sizeAll done) ns + 1 + (t.size + Tree.sizeAll n.children) =
        next (Tree.sizeAll done) ns + 1 + Tree.sizeAll n.children + t.size
      omega

/-- An end leaves what is noted as it is, and closes a node. -/
theorem noted_finish : b.finish.noted = b.noted ∧ b.finish.openIds = b.openIds.tail ∧
    b.finish.nextId = b.nextId := by
  rcases b with ⟨done, _ | ⟨n, ns⟩, errors⟩
  · exact ⟨rfl, rfl, rfl⟩
  · obtain ⟨hnoted, hopen, hnext⟩ :=
      noted_attach ⟨done, ns, errors⟩ (.node n.kind n.children.reverse)
    refine ⟨hnoted, hopen, hnext.trans ?_⟩
    rw [Tree.size, sizeAll_reverse]
    show next (Tree.sizeAll done) ns + (Tree.sizeAll n.children + 1) =
      next (Tree.sizeAll done) ns + 1 + Tree.sizeAll n.children
    omega

/-- **A call does to a builder what it says**, and leaves what will be begun by those behind it. -/
theorem noted_call (c : Call SyntaxError) (calls : List (Call SyntaxError)) :
    (b.call c).noted ++ begun (b.call c).openIds (b.call c).nextId calls =
      b.noted ++ begun b.openIds b.nextId (c :: calls) := by
  rcases c with kind | _ | t | e
  · show notedBelow b.done (⟨kind, []⟩ :: b.open_) ++ _ = b.noted ++ _ :: _
    rw [notedBelow, List.append_assoc]
    rfl
  · obtain ⟨hnoted, hopen, hnext⟩ := b.noted_finish
    rw [call, hnoted, hopen, hnext, begun]
  · obtain ⟨hnoted, hopen, hnext⟩ := b.noted_attach (.leaf t)
    rw [call, token, hnoted, hopen, hnext, begun, List.append_assoc]
    rfl
  · rfl

/-- So after all calls what they began is noted. -/
theorem noted_foldl (calls : List (Call SyntaxError)) :
    (calls.foldl call b).noted = b.noted ++ begun b.openIds b.nextId calls := by
  induction calls generalizing b with
  | nil => exact (List.append_nil _).symm
  | cons c calls ih => rw [List.foldl_cons, ih, noted_call]

/-! ### Finished trees -/

theorem length_open_finish : b.finish.depth = b.depth - 1 := by
  rcases b with ⟨done, _ | ⟨n, _ | ⟨m, ns⟩⟩, errors⟩ <;> rfl

/-- No node is open any more when as many have been ended as were open. -/
theorem open_repeat_finish : (Nat.repeat finish b.depth b).open_ = [] := by
  have hdepth (k : Nat) : (Nat.repeat finish k b).depth = b.depth - k := by
    induction k with
    | zero => rfl
    | succ k ih =>
      rw [Nat.repeat, length_open_finish, ih]
      rfl
  exact List.eq_nil_of_length_eq_zero ((hdepth b.depth).trans (Nat.sub_self _))

/-- Once all nodes are closed, what is noted is in the finished trees. -/
theorem noteAll_trees : noteAll none 0 b.trees = b.noted := by
  have hnoted (k : Nat) : (Nat.repeat finish k b).noted = b.noted := by
    induction k with
    | zero => rfl
    | succ k ih => rw [Nat.repeat, (noted_finish _).1, ih]
  rw [← hnoted b.depth, noted, open_repeat_finish]
  rfl

theorem noteAll_trees_after (calls : List (Call SyntaxError)) :
    noteAll none 0 (after calls).trees = begun [] 0 calls :=
  (noteAll_trees _).trans (noted_foldl _ calls)

/-- **The trees of a document hold what was begun**, in the order of the calls. -/
theorem noteAll_trees_build (calls : List (Call SyntaxError)) (source : String) :
    noteAll none 0 ((after calls).build source).trees = history calls := by
  show noteAll none 0 (if (after calls).trees.isEmpty then [.node .file []]
    else (after calls).trees) = _
  rw [history, ← noteAll_trees_after]
  rcases (after calls).trees with _ | ⟨t | ⟨k, cs⟩, ds⟩ <;> rfl

/-- Where nothing was begun, the document is an empty file. -/
theorem trees_build_of_begun_eq_nil {calls : List (Call SyntaxError)} (h : begun [] 0 calls = [])
    (source : String) : ((after calls).build source).trees = [.node .file []] := by
  rw [← noteAll_trees_after] at h
  show (if (after calls).trees.isEmpty then _ else (after calls).trees) = _
  rcases htrees : (after calls).trees with _ | ⟨t | ⟨k, cs⟩, ds⟩
  · rfl
  · rw [htrees] at h
    exact nomatch h
  · rw [htrees] at h
    exact nomatch h

theorem errors_call (c : Call SyntaxError) : (b.call c).errors = c.error?.toList ++ b.errors := by
  have hattach (b : Builder) (t : Tree) : (b.attach t).errors = b.errors := by
    rcases b with ⟨done, _ | ⟨n, ns⟩, errors⟩ <;> rfl
  rcases c with kind | _ | t | e
  · rfl
  · rcases b with ⟨done, _ | ⟨n, ns⟩, errors⟩
    · rfl
    · exact hattach _ _
  · exact hattach b _
  · rfl

/-- Errors are noted one after the other, and nothing else is done to them. -/
theorem reverse_errors_after (calls : List (Call SyntaxError)) :
    (after calls).errors.reverse = calls.filterMap Call.error? := by
  have hfoldl (b : Builder) :
      (calls.foldl call b).errors.reverse = b.errors.reverse ++ calls.filterMap Call.error? := by
    induction calls generalizing b with
    | nil => exact (List.append_nil _).symm
    | cons c calls ih =>
      rw [List.foldl_cons, ih, errors_call, List.reverse_append, List.append_assoc]
      rcases c with kind | _ | t | e <;> rfl
  exact hfoldl {}

/-! ### Reading the trees -/

/-- The numbers of the nodes that were begun below a node. -/
def childIds (q : Nat) (es : List Beginning) : List Nat :=
  (es.filter (·.parent? = some q)).map Beginning.id

theorem childIds_append (q : Nat) (es fs : List Beginning) :
    childIds q (es ++ fs) = childIds q es ++ childIds q fs := by
  rw [childIds, List.filter_append, List.map_append]
  rfl

theorem childIds_cons_of_ne {q : Nat} {e : Beginning} (h : e.parent? ≠ some q)
    (es : List Beginning) :
    childIds q (e :: es) = childIds q es := by
  rw [childIds, List.filter_cons_of_neg (by simpa using h)]
  rfl

theorem childIds_cons_of_eq {q : Nat} {e : Beginning} (h : e.parent? = some q)
    (es : List Beginning) :
    childIds q (e :: es) = e.id :: childIds q es := by
  rw [childIds, List.filter_cons_of_pos (by simpa using h)]
  rfl

mutual

/-- Nodes are below one another in a tree, but for its topmost node. -/
theorem childIds_note_of_notMem {q : Nat} {parent? : Option Nat} (hq : parent? ≠ some q) :
    ∀ (t : Tree) (id : Nat), q < id ∨ id + t.size ≤ q → childIds q (note parent? id t) = []
  | .leaf x, id, _ => childIds_cons_of_ne hq []
  | .node k cs, id, h => by
    rw [Tree.size] at h
    rw [note, childIds_cons_of_ne hq]
    refine childIds_noteAll_of_notMem (fun heq ↦ ?_) cs (id + 1) (by omega)
    have := Option.some.inj heq
    omega

/-- A node elsewhere has no children among these trees. -/
theorem childIds_noteAll_of_notMem {q : Nat} {parent? : Option Nat} (hq : parent? ≠ some q) :
    ∀ (cs : List Tree) (id : Nat), q < id ∨ id + Tree.sizeAll cs ≤ q →
      childIds q (noteAll parent? id cs) = []
  | [], _, _ => rfl
  | c :: cs, id, h => by
    rw [Tree.sizeAll] at h
    rw [noteAll, childIds_append, childIds_note_of_notMem hq c id (by omega),
      childIds_noteAll_of_notMem hq cs (id + c.size) (by omega)]
    rfl

end

/-- Directly below a node stand the topmost nodes of the trees there. -/
theorem childIds_noteAll_self {q id : Nat} (hq : q < id) (first : Nat) (cs : List Tree) :
    childIds q (noteAll (some q) id cs) = (Node.place id first cs).map Node.id := by
  induction cs generalizing id first with
  | nil => rfl
  | cons c cs ih =>
    have htop : childIds q (note (some q) id c) = [id] := by
      rcases c with t | ⟨k, ds⟩
      · exact childIds_cons_of_eq rfl []
      · have hne : some id ≠ some q := fun heq ↦ Nat.ne_of_gt hq (Option.some.inj heq)
        rw [note, childIds_cons_of_eq rfl, childIds_noteAll_of_notMem hne ds _ (by omega)]
    rw [noteAll, childIds_append, htop, ih (by omega) (first + c.width)]
    rfl

mutual

/-- Within a tree the children of its topmost node come first, and others are found further down. -/
theorem childIds_note {p : Node} {parent? : Option Nat} (hp : parent? ≠ some p.id) :
    ∀ (t : Tree) (id first : Nat), p ∈ Node.preorder ⟨id, first, t⟩ →
      childIds p.id (note parent? id t) = p.children.map Node.id
  | .leaf x, id, first, h => by
    have hchildren : Node.children ⟨id, first, .leaf x⟩ = [] := rfl
    rw [Node.preorder, Node.preorderAll_cons, hchildren, List.nil_append, Node.preorderAll,
      List.mem_singleton] at h
    subst h
    exact childIds_cons_of_ne hp []
  | .node k cs, id, first, h => by
    rw [Node.preorder, Node.preorderAll_eq_append, Node.preorderAll, List.append_nil] at h
    rw [note, childIds_cons_of_ne hp]
    rcases List.mem_cons.1 h with rfl | h
    · exact childIds_noteAll_self (Nat.lt_succ_self id) first cs
    · have hlt := (Node.isBelow_of_mem_preorderAll_children h).1
      exact childIds_noteAll (fun heq ↦ absurd (Option.some.inj heq) (Nat.ne_of_lt hlt)) cs (id + 1)
        first h

/-- **The children of a node are those that were begun below it.** -/
theorem childIds_noteAll {p : Node} {parent? : Option Nat} (hp : parent? ≠ some p.id) :
    ∀ (cs : List Tree) (id first : Nat), p ∈ Node.preorderAll (Node.place id first cs) →
      childIds p.id (noteAll parent? id cs) = p.children.map Node.id
  | [], _, _, h => by
    rw [Node.place, Node.preorderAll] at h
    exact absurd h List.not_mem_nil
  | c :: cs, id, first, h => by
    rw [Node.place, ← List.singleton_append, Node.preorderAll_append] at h
    rw [noteAll, childIds_append]
    rcases List.mem_append.1 h with h | h
    · have hids := Node.ids_of_mem_preorder h
      have hpos := p.size_pos
      simp only [Node.size] at hids hpos
      rw [childIds_note hp c id first h, childIds_noteAll_of_notMem hp cs _ (by omega),
        List.append_nil]
    · have hle := Node.le_id_of_mem_preorderAll h
      rw [childIds_note_of_notMem hp c id (by omega), childIds_noteAll hp cs _ _ h, List.nil_append]

end

/-- The topmost nodes of trees have the same contents wherever the trees are put. -/
theorem map_noteAll_congr (p q : Option Nat) (id : Nat) (cs : List Tree) :
    (noteAll p id cs).map (fun e ↦ (e.id, e.content)) =
      (noteAll q id cs).map fun e ↦ (e.id, e.content) := by
  induction cs generalizing id with
  | nil => rfl
  | cons c cs ih =>
    rw [noteAll, noteAll, List.map_append, List.map_append, ih]
    rcases c with t | ⟨k, ds⟩ <;> rfl

/-- The nodes of trees are listed in the order in which they were begun. -/
theorem map_preorderAll_place (parent? : Option Nat) (id first : Nat) (cs : List Tree) :
    (Node.preorderAll (Node.place id first cs)).map (fun n ↦ (n.id, n.tree.content)) =
      (noteAll parent? id cs).map fun e ↦ (e.id, e.content) := by
  induction cs using Tree.forest_induction generalizing id first with
  | nil => rw [Node.place, Node.preorderAll]; rfl
  | leaf t cs ih =>
    rw [Node.preorderAll_place_leaf, List.map_cons, ih]
    rfl
  | node k cs ds ih =>
    rw [Node.preorderAll_place_node, List.map_cons, ih, noteAll, note, List.cons_append,
      List.map_cons, List.map_append, map_noteAll_congr (some id) parent?, noteAll_append,
      List.map_append, Tree.size, Nat.add_right_comm id 1, Nat.add_assoc]
    rfl

end Builder

/-! ### Where the tokens are -/

/-- The token of a leaf, with its number. -/
def Node.leaf? (n : Node) : Option (Token × Nat) := n.tree.token?.map (·, n.first)

/-- The leaves of trees hold the tokens one after the other. -/
theorem Node.filterMap_leaf_preorderAll_place (id first : Nat) (cs : List Tree) :
    (preorderAll (place id first cs)).filterMap leaf? = (Tree.tokensAll cs).zipIdx first := by
  induction cs using Tree.forest_induction generalizing id first with
  | nil => rw [place, preorderAll]; rfl
  | leaf t cs ih =>
    rw [preorderAll_place_leaf]
    exact congrArg ((t, first) :: ·) (ih (id + 1) (first + 1))
  | node k cs ds ih =>
    rw [preorderAll_place_node, Tree.tokensAll, Tree.tokens, ← Tree.tokensAll_append]
    exact ih (id + 1) first

namespace Document

/-- **A node covers the tokens below it** and no others. -/
theorem filterMap_leaf_preorder {d : Document} {n : Node} (h : n ∈ d.nodes) :
    n.preorder.filterMap Node.leaf? =
      (d.tokens.toList.zipIdx.drop n.range.first).take n.range.length := by
  obtain ⟨us, vs, htokens, hfirst⟩ := Node.standsIn_of_mem_nodes h
  have hleaves : n.preorder.filterMap Node.leaf? = n.tree.tokens.zipIdx n.first := by
    have hplace := Node.filterMap_leaf_preorderAll_place n.id n.first [n.tree]
    rwa [Tree.tokensAll, Tree.tokensAll, List.append_nil] at hplace
  have hrange : n.range.length = (n.tree.tokens.zipIdx n.first).length := by
    rw [List.length_zipIdx, Tree.length_tokens]
    exact Nat.add_sub_cancel_left _ _
  have hdrop : n.range.first = (us.zipIdx 0).length := by
    rw [List.length_zipIdx, hfirst]
    rfl
  rw [hleaves, htokens, List.zipIdx_append, List.zipIdx_append, hdrop, List.drop_left, hrange,
    Nat.zero_add, hfirst, List.take_left]

/-- The range of a node lies within its document. -/
theorem range_le_of_mem_nodes {d : Document} {n : Node} (h : n ∈ d.nodes) :
    n.range.first ≤ n.range.stop ∧ n.range.stop ≤ d.tokens.size := by
  obtain ⟨us, vs, htokens, hfirst⟩ := Node.standsIn_of_mem_nodes h
  refine ⟨Nat.le_add_right _ _, ?_⟩
  rw [← Array.length_toList, htokens, List.length_append, List.length_append, Tree.length_tokens,
    hfirst]
  show n.first + n.tree.width ≤ _
  omega

end Document

namespace Builder

/-- The tokens among what was begun are those that were added. -/
theorem filterMap_begun (calls : List (Call SyntaxError)) (opens : List Nat) (id : Nat) :
    (begun opens id calls).filterMap (·.content.getRight?) = calls.filterMap Call.token? := by
  fun_induction begun opens id calls with
  | case1 => rfl
  | case2 opens id kind calls ih => exact ih
  | case3 opens id calls ih => exact ih
  | case4 opens id t calls ih => exact congrArg (t :: ·) ih
  | case5 opens id e calls ih => exact ih

theorem filterMap_history (calls : List (Call SyntaxError)) :
    (history calls).filterMap (·.content.getRight?) = calls.filterMap Call.token? := by
  rw [← filterMap_begun calls [] 0, history]
  rcases begun [] 0 calls <;> rfl

mutual

theorem tokens_eq (parent? : Option Nat) : ∀ (t : Tree) (id : Nat),
    t.tokens = (note parent? id t).filterMap (·.content.getRight?)
  | .leaf _, _ => rfl
  | .node _ cs, id => tokensAll_eq (some id) cs (id + 1)

/-- The tokens of trees are those that were begun. -/
theorem tokensAll_eq (parent? : Option Nat) : ∀ (cs : List Tree) (id : Nat),
    Tree.tokensAll cs = (noteAll parent? id cs).filterMap (·.content.getRight?)
  | [], _ => rfl
  | c :: cs, id => by
    rw [Tree.tokensAll, noteAll, List.filterMap_append, ← tokens_eq parent? c id,
      ← tokensAll_eq parent? cs (id + c.size)]

end

end Builder

end BslLint
