import BslLint.Proofs.Syntax.Building
import BslLint.Proofs.Syntax.Layout

/-!
# Linking nodes one by one

A `TreeBuilder` never sees a tree: it links cells, one call at a time. A `Builder` does the same
with trees. After the same calls the one stores the other (`Builder.StoredIn`): the arena and the
table of last children are the row of cells of all nodes begun so far, and the stack has the numbers
of the open ones. Each call keeps to this (`Builder.StoredIn.call`), so the finished tree
`Represents` the finished document (`TreeBuilder.represents_build`).

The one call that writes to a cell of another node is that for a new node, which is linked to its
parent if it is the first child and to the child before otherwise (`Links`).
-/

namespace BslLint

open BslLint.TreeBuilder (Call)

/-! ### One link -/

theorem modify_append_cons {α : Type} (us vs : List α) (x : α) (f : α → α) :
    (us ++ x :: vs).modify us.length f = us ++ f x :: vs := by
  induction us with
  | nil => rfl
  | cons u us ih => exact congrArg (u :: ·) ih

/-- In a row the node `id` is linked below a parent: the parent's cell is told of it if it has no
child, else that of its last child. -/
inductive Links (id : Nat) : Option Nat → List Slot → List Slot → Prop where
  | top (row : List Slot) : Links id none row row
  | first (us vs : List Slot) (c : Cell) : Links id (some us.length) (us ++ (c, none) :: vs)
      (us ++ ({ c with firstChild := some id }, some id) :: vs)
  | next (us ws vs : List Slot) (c d : Cell) (last? : Option Nat) : Links id (some us.length)
      (us ++ (c, some (us.length + 1 + ws.length)) :: (ws ++ (d, last?) :: vs))
      (us ++ (c, some id) :: (ws ++ ({ d with nextSibling := some id }, last?) :: vs))

/-- A link has nothing to do with what stands behind the row. -/
theorem Links.append {id : Nat} {parent? : Option Nat} {row row' : List Slot}
    (h : Links id parent? row row') (slots : List Slot) :
    Links id parent? (row ++ slots) (row' ++ slots) := by
  cases h with
  | top => exact .top _
  | first us vs c =>
    rw [List.append_assoc, List.append_assoc]
    exact .first us (vs ++ slots) c
  | next us ws vs c d last? =>
    rw [List.append_assoc, List.append_assoc, List.cons_append, List.cons_append, List.append_assoc,
      List.append_assoc]
    exact .next us ws (vs ++ slots) c d last?

namespace TreeBuilder

variable (b : TreeBuilder)

/-- The arena and the table of last children are a row of cells. -/
def Holds (row : List Slot) : Prop :=
  b.arena.cells.toList = row.map Prod.fst ∧ b.lastChild.toList = row.map Prod.snd

variable {b} {row row' : List Slot}

theorem Holds.size_eq (h : b.Holds row) : b.arena.size = row.length := by
  rw [Arena.size, ← Array.length_toList, h.1, List.length_map]

/-- Attaching writes one link. -/
theorem Holds.attach {id : Nat} (h : b.Holds row) (hlinks : Links id b.stack.head? row row') :
    (b.attach id).Holds row' := by
  obtain ⟨hcells, hlast⟩ := h
  rcases hstack : b.stack with _ | ⟨parent, stack⟩ <;>
    simp only [hstack, List.head?_nil, List.head?_cons] at hlinks <;>
    simp only [TreeBuilder.attach, hstack]
  · cases hlinks
    exact ⟨hcells, hlast⟩
  · have hentry : b.lastChild.getD parent none = (row.map Prod.snd)[parent]?.getD none := by
      rw [Array.getD_eq_getD_getElem?, ← Array.getElem?_toList, hlast]
    rw [hentry]
    refine ⟨?_, by rw [Array.toList_setIfInBounds, hlast]; cases hlinks <;> simp⟩
    -- The link is written to the parent itself or, past the children that it has, to the last of
    -- them.
    cases hlinks with
    | first us vs c =>
      rw [show ((us ++ (c, none) :: vs).map Prod.snd)[us.length]? = some none by simp]
      show (b.arena.cells.modify us.length _).toList = _
      rw [Array.toList_modify, hcells, List.map_append, List.map_append, ← List.length_map Prod.fst]
      exact modify_append_cons ..
    | next us ws vs c d last? =>
      have hregroup (x y : Slot) : us ++ x :: (ws ++ y :: vs) = (us ++ x :: ws) ++ y :: vs := by
        simp
      have hlength : us.length + 1 + ws.length =
          ((us.map Prod.fst) ++ c :: ws.map Prod.fst).length := by
        rw [List.length_append, List.length_cons, List.length_map, List.length_map]
        omega
      rw [show ((us ++ (c, some (us.length + 1 + ws.length)) :: (ws ++ (d, last?) :: vs)).map
        Prod.snd)[us.length]? = some (some (us.length + 1 + ws.length)) by simp]
      show (b.arena.cells.modify (us.length + 1 + ws.length) _).toList = _
      rw [Array.toList_modify, hcells, hregroup, hregroup, List.map_append, List.map_append,
        List.map_append, List.map_append, List.map_cons, List.map_cons, List.map_cons, hlength]
      exact modify_append_cons ..

/-- What attaching leaves alone. -/
theorem attach_fields (id : Nat) : (b.attach id).stack = b.stack ∧
    (b.attach id).root? = b.root? ∧ (b.attach id).tokens = b.tokens ∧
      (b.attach id).errors = b.errors ∧ (b.attach id).source = b.source := by
  rw [TreeBuilder.attach]
  split <;> exact ⟨rfl, rfl, rfl, rfl, rfl⟩

/-- A new cell is put behind the others and linked to them. -/
theorem Holds.add (h : b.Holds row) (hlinks : Links row.length b.stack.head? row row') (c : Cell) :
    (b.add c).Holds (row' ++ [(c, none)]) := by
  have hpush : ({ b with arena := b.arena.push c, lastChild := b.lastChild.push none } :
      TreeBuilder).Holds (row ++ [(c, none)]) := by
    constructor
    · show (b.arena.cells.push c).toList = _
      rw [Array.toList_push, h.1, List.map_append]
      rfl
    · show (b.lastChild.push none).toList = _
      rw [Array.toList_push, h.2, List.map_append]
      rfl
  rw [← h.size_eq] at hlinks
  exact hpush.attach (hlinks.append _)

/-- What a new cell leaves alone. -/
theorem add_fields (c : Cell) : (b.add c).stack = b.stack ∧
    (b.add c).root? = b.root?.or (some b.arena.size) ∧ (b.add c).tokens = b.tokens ∧
      (b.add c).errors = b.errors ∧ (b.add c).source = b.source := by
  obtain ⟨hstack, hroot, htokens, herrors, hsource⟩ := attach_fields
    (b := { b with arena := b.arena.push c, lastChild := b.lastChild.push none }) b.arena.size
  exact ⟨hstack, congrArg (·.or (some b.arena.size)) hroot, htokens, herrors, hsource⟩

end TreeBuilder

/-! ### The row of a builder -/

namespace Builder

/-- The number of tokens so far, where the finished trees have `width` of them. -/
def passed (width : Nat) : List OpenNode → Nat
  | [] => width
  | n :: ns => passed width ns + Tree.widthAll n.children

/-- The tokens of the finished trees and of the open nodes. -/
def tokensBelow (done : List Tree) : List OpenNode → List Token
  | [] => Tree.tokensAll done.reverse
  | n :: ns => tokensBelow done ns ++ Tree.tokensAll n.children.reverse

/-- The cells of the finished trees and of the open nodes. Below the innermost of these stands
`child?`, behind its other children. -/
def slotsBelow (child? : Option Nat) (done : List Tree) : List OpenNode → List Slot
  | [] => Tree.slotsAll false none 0 0 done.reverse
  | n :: ns =>
    let id := next (Tree.sizeAll done) ns
    let first := passed (Tree.widthAll done) ns
    slotsBelow (some id) done ns ++
      ({ kind := n.kind, firstChild := Tree.firstId child? (id + 1) n.children.reverse,
         range := .emptyAt first }, child?.or (Tree.lastId (id + 1) n.children.reverse)) ::
      Tree.slotsAll true child? (id + 1) first n.children.reverse

theorem widthAll_reverse (cs : List Tree) : Tree.widthAll cs.reverse = Tree.widthAll cs := by
  induction cs with
  | nil => rfl
  | cons c cs ih =>
    rw [List.reverse_cons, Tree.widthAll_append, ih, Tree.widthAll, Tree.widthAll, Tree.widthAll]
    omega

/-- There is one cell for each node begun. -/
theorem length_slotsBelow (child? : Option Nat) (done : List Tree) (ns : List OpenNode) :
    (slotsBelow child? done ns).length = next (Tree.sizeAll done) ns := by
  induction ns generalizing child? with
  | nil => rw [slotsBelow, Tree.length_slotsAll, sizeAll_reverse, next]
  | cons n ns ih =>
    rw [slotsBelow, List.length_append, List.length_cons, ih, Tree.length_slotsAll, sizeAll_reverse,
      next]
    omega

theorem length_tokensBelow (done : List Tree) (ns : List OpenNode) :
    (tokensBelow done ns).length = passed (Tree.widthAll done) ns := by
  induction ns with
  | nil => rw [tokensBelow, Tree.length_tokensAll, widthAll_reverse, passed]
  | cons n ns ih =>
    rw [tokensBelow, List.length_append, ih, Tree.length_tokensAll, widthAll_reverse, passed]

/-- **A node below the innermost open one makes for one link more.** -/
theorem links_slotsBelow (id : Nat) (done : List Tree) (ns : List OpenNode) :
    Links id (opens (Tree.sizeAll done) ns).head? (slotsBelow none done ns)
      (slotsBelow (some id) done ns) := by
  rcases ns with _ | ⟨⟨k, _ | ⟨c, cs⟩⟩, ns⟩
  · exact .top _
  · rw [opens, List.head?_cons, ← length_slotsBelow (some (next (Tree.sizeAll done) ns))]
    exact .first _ _ { kind := k, range := .emptyAt (passed (Tree.widthAll done) ns) }
  · -- The last child is a tree of its own behind the others, and the link goes into its first cell.
    let parent := next (Tree.sizeAll done) ns
    let first := passed (Tree.widthAll done) ns
    let last : Node := ⟨parent + 1 + Tree.sizeAll cs.reverse, first + Tree.widthAll cs.reverse, c⟩
    let us := slotsBelow (some parent) done ns
    let ws := Tree.slotsAll true (some last.id) (parent + 1) first cs.reverse
    let vs := Tree.slotsAll true none (last.id + 1) last.first last.tree.children
    let head : Cell :=
      ⟨k, Tree.firstId (some last.id) (parent + 1) cs.reverse, none, .emptyAt first⟩
    have hrow (child? : Option Nat) : slotsBelow child? done (⟨k, c :: cs⟩ :: ns) =
        us ++ (head, child?.or (some last.id)) ::
          (ws ++ (last.cell child?, Tree.lastId (last.id + 1) last.tree.children) :: vs) := by
      rw [slotsBelow, List.reverse_cons, Tree.firstId_append, Tree.lastId_append_singleton,
        Tree.slotsAll_append, Tree.slotsAll_singleton, ← Node.slots_eq]
      rfl
    have hlinks : Links id _ _ _ := .next us ws vs head (last.cell none)
      (Tree.lastId (last.id + 1) last.tree.children)
    rw [length_slotsBelow, Tree.length_slotsAll] at hlinks
    rw [opens, List.head?_cons, hrow, hrow]
    exact hlinks

/-- Trees that are no siblings have none behind the last either. -/
theorem slotsAll_false (next? next?' : Option Nat) (id first : Nat) (cs : List Tree) :
    Tree.slotsAll false next? id first cs = Tree.slotsAll false next?' id first cs := by
  induction cs generalizing id first with
  | nil => rfl
  | cons c cs ih =>
    rw [Tree.slotsAll, Tree.slotsAll, ih]
    rfl

variable (b : Builder)

/-- The cells of all nodes so far. -/
def slots : List Slot := slotsBelow none b.done b.open_

/-- The tokens so far. -/
def tokens : List Token := tokensBelow b.done b.open_

theorem length_slots : b.slots.length = b.nextId := length_slotsBelow ..

/-- A tree that is attached lies behind the others, with one link to it. -/
theorem slots_attach (t : Tree) : (b.attach t).slots =
    slotsBelow (some b.nextId) b.done b.open_ ++ t.slots none b.nextId b.tokens.length := by
  rw [tokens, length_tokensBelow]
  rcases b with ⟨done, _ | ⟨n, ns⟩, errors⟩
  · show Tree.slotsAll false none 0 0 (t :: done).reverse =
      Tree.slotsAll false none 0 0 done.reverse ++
      t.slots none (Tree.sizeAll done) (Tree.widthAll done)
    rw [List.reverse_cons, Tree.slotsAll_append, slotsAll_false _ none, sizeAll_reverse,
      widthAll_reverse, Nat.zero_add, Nat.zero_add, Tree.slotsAll, Tree.slotsAll, List.append_nil]
    rfl
  · show slotsBelow none done (⟨n.kind, t :: n.children⟩ :: ns) = slotsBelow _ done (n :: ns) ++ _
    rw [slotsBelow, slotsBelow, List.reverse_cons, Tree.firstId_append,
      Tree.lastId_append_singleton,
      Tree.slotsAll_append, Tree.slotsAll_singleton, List.append_assoc, sizeAll_reverse,
      widthAll_reverse]
    rfl

theorem tokens_attach (t : Tree) : (b.attach t).tokens = b.tokens ++ t.tokens := by
  rcases b with ⟨done, _ | ⟨n, ns⟩, errors⟩
  · show Tree.tokensAll (t :: done).reverse = Tree.tokensAll done.reverse ++ t.tokens
    rw [List.reverse_cons, Tree.tokensAll_append, Tree.tokensAll, Tree.tokensAll, List.append_nil]
  · show tokensBelow done ns ++ Tree.tokensAll (t :: n.children).reverse =
      (tokensBelow done ns ++ Tree.tokensAll n.children.reverse) ++ t.tokens
    rw [List.reverse_cons, Tree.tokensAll_append, Tree.tokensAll, Tree.tokensAll, List.append_nil,
      List.append_assoc]

theorem errors_attach (t : Tree) : (b.attach t).errors = b.errors := by
  rcases b with ⟨done, _ | ⟨n, ns⟩, errors⟩ <;> rfl

/-- An end writes to the cell of the node that it ends how far this reaches. -/
theorem slots_finish (n : OpenNode) (done : List Tree) (ns : List OpenNode)
    (errors : List SyntaxError) : ∃ us vs c last?,
    us.length = next (Tree.sizeAll done) ns ∧
    slots ⟨done, n :: ns, errors⟩ = us ++ (c, last?) :: vs ∧
    (finish ⟨done, n :: ns, errors⟩).slots =
      us ++ ({ c with range := { c.range with
        stop := (tokens ⟨done, n :: ns, errors⟩).length } }, last?) :: vs := by
  refine ⟨_, _, _, _, length_slotsBelow .., rfl, ?_⟩
  show (attach ⟨done, ns, errors⟩ (.node n.kind n.children.reverse)).slots = _
  rw [slots_attach, Tree.slots, tokens, tokens, length_tokensBelow, length_tokensBelow, passed,
    widthAll_reverse]
  rfl

/-! ### Builders of trees and builders of links -/

/-- The builder of links has come to the same as the builder of trees. -/
structure StoredIn (b : Builder) (source : String) (t : TreeBuilder) : Prop where
  /-- It has linked the row of all nodes so far. -/
  holds : t.Holds b.slots
  /-- The nodes that are open are the same. -/
  stack : t.stack = b.openIds
  /-- The root is the first node. -/
  root? : t.root? = if b.nextId = 0 then none else some 0
  /-- The tokens are the same. -/
  tokens : t.tokens.toList = b.tokens
  /-- The errors are the same. -/
  errors : t.errors.toList = b.errors.reverse
  /-- The text is the given one. -/
  source : t.source = source

namespace StoredIn

variable {b : Builder} {source : String} {t : TreeBuilder}

theorem size_tokens (h : b.StoredIn source t) : t.tokens.size = b.tokens.length := by
  rw [← Array.length_toList, h.tokens]

/-- The next node is linked to where the row of the other builder has its link. -/
theorem links (h : b.StoredIn source t) :
    Links b.slots.length t.stack.head? b.slots (slotsBelow (some b.nextId) b.done b.open_) := by
  rw [h.stack, length_slots]
  exact links_slotsBelow ..

/-- With a new cell there is a root, and it is the first node. -/
theorem root?_or (h : b.StoredIn source t) : t.root?.or (some t.arena.size) = some 0 := by
  rw [h.root?, h.holds.size_eq, length_slots]
  by_cases hzero : b.nextId = 0
  · rw [if_pos hzero, hzero]
    rfl
  · rw [if_neg hzero]
    rfl

/-- A node that begins has no tokens yet in the one, and no children in the other. -/
theorem start (h : b.StoredIn source t) (kind : NodeKind) :
    (b.start kind).StoredIn source (t.start kind) := by
  let c : Cell := { kind, range := .emptyAt t.tokens.size }
  obtain ⟨-, hroot, htokens, herrors, hsource⟩ := t.add_fields c
  constructor
  case holds =>
    have hslots : (b.start kind).slots =
        slotsBelow (some b.nextId) b.done b.open_ ++ [(c, none)] := by
      show _ = _ ++ [(({ kind, range := .emptyAt t.tokens.size } : Cell), none)]
      rw [h.size_tokens, Builder.tokens, length_tokensBelow]
      rfl
    rw [hslots]
    -- The new slot comes behind all others, and nothing is below it yet.
    exact h.holds.add h.links c
  case stack =>
    show t.arena.size :: t.stack = b.nextId :: b.openIds
    rw [h.holds.size_eq, length_slots, h.stack]
  case root? => exact hroot.trans (h.root?_or.trans (if_neg (Nat.succ_ne_zero b.nextId)).symm)
  case tokens =>
    show (t.add c).tokens.toList = tokensBelow b.done b.open_ ++ Tree.tokensAll []
    rw [htokens, h.tokens, Tree.tokensAll, List.append_nil, Builder.tokens]
  case errors => exact (congrArg Array.toList herrors).trans h.errors
  case source => exact hsource.trans h.source

/-- A token is linked like a node that begins, and is not open. -/
theorem token (h : b.StoredIn source t) (x : Token) : (b.token x).StoredIn source (t.token x) := by
  let t' : TreeBuilder := { t with tokens := t.tokens.push x }
  let c : Cell := { kind := .token, range := ⟨t.tokens.size, t.tokens.size + 1⟩ }
  have hadd : (t'.add c).Holds _ := TreeBuilder.Holds.add (b := t') h.holds h.links c
  obtain ⟨hstack, hroot, htokens, herrors, hsource⟩ := t'.add_fields c
  obtain ⟨-, hopen, hnext⟩ := b.noted_attach (.leaf x)
  constructor
  case holds =>
    rw [Builder.token, slots_attach, ← h.size_tokens]
    exact hadd
  case stack => exact hstack.trans (h.stack.trans hopen.symm)
  case root? =>
    rw [Builder.token, hnext]
    exact hroot.trans (h.root?_or.trans (if_neg (Nat.succ_ne_zero b.nextId)).symm)
  case tokens =>
    rw [Builder.token, tokens_attach, ← h.tokens]
    exact (congrArg Array.toList htokens).trans Array.toList_push
  case errors =>
    rw [Builder.token, errors_attach]
    exact (congrArg Array.toList herrors).trans h.errors
  case source => exact hsource.trans h.source

/-- At the end of a node the one makes a tree of it, and the other writes how far it reaches. -/
theorem finish (h : b.StoredIn source t) : b.finish.StoredIn source t.finish := by
  obtain ⟨-, hopen, hnext⟩ := b.noted_finish
  have hstack := h.stack
  -- With nothing open neither does anything.
  rcases b with ⟨done, _ | ⟨n, ns⟩, errors⟩
  · have hfinish : t.finish = t := by
      rw [TreeBuilder.finish, hstack]
      rfl
    rw [hfinish]
    exact h
  · -- The cell of the innermost open node is the only one that changes.
    obtain ⟨us, vs, c, last?, hlength, hslots, hslots'⟩ := slots_finish n done ns errors
    have hfinish : t.finish = { t with
        arena := t.arena.modify us.length fun c ↦
          { c with range := { c.range with stop := t.tokens.size } }
        stack := opens (Tree.sizeAll done) ns } := by
      rw [TreeBuilder.finish, hstack, hlength]
      rfl
    obtain ⟨hcells, hlast⟩ := h.holds
    rw [hslots, List.map_append, List.map_cons] at hcells hlast
    rw [hfinish]
    constructor
    case holds =>
      rw [hslots', ← h.size_tokens, TreeBuilder.Holds, List.map_append, List.map_cons,
        List.map_append, List.map_cons]
      refine ⟨?_, hlast⟩
      show (t.arena.cells.modify us.length _).toList = _
      rw [Array.toList_modify, hcells, ← List.length_map Prod.fst]
      exact modify_append_cons ..
    case stack => exact hopen.symm
    case root? => exact h.root?.trans (by rw [hnext])
    case tokens =>
      show t.tokens.toList = (attach ⟨done, ns, errors⟩ (.node n.kind n.children.reverse)).tokens
      rw [tokens_attach, h.tokens]
      rfl
    case errors =>
      show t.errors.toList =
        (attach ⟨done, ns, errors⟩ (.node n.kind n.children.reverse)).errors.reverse
      rw [errors_attach, h.errors]
    case source => exact h.source

theorem error (h : b.StoredIn source t) (e : SyntaxError) :
    (b.error e).StoredIn source (t.error e) where
  holds := h.holds
  stack := h.stack
  root? := h.root?
  tokens := h.tokens
  errors := by
    show (t.errors.push e).toList = (e :: b.errors).reverse
    rw [Array.toList_push, h.errors, List.reverse_cons]
  source := h.source

/-- **A call does the same to both builders.** -/
theorem call (h : b.StoredIn source t) (c : Call SyntaxError) :
    (b.call c).StoredIn source (t.call c) := by
  cases c with
  | start kind => exact h.start kind
  | finish => exact h.finish
  | token x => exact h.token x
  | error e => exact h.error e

/-- And so does every run of calls. -/
theorem foldl (h : b.StoredIn source t) (calls : List (Call SyntaxError)) :
    (calls.foldl Builder.call b).StoredIn source (calls.foldl TreeBuilder.call t) := by
  induction calls generalizing b t with
  | nil => exact h
  | cons c calls ih => exact ih (h.call c)

/-- Both end the nodes that are open. -/
theorem close (h : b.StoredIn source t) :
    (Nat.repeat Builder.finish b.depth b).StoredIn source t.close := by
  have hrepeat (k : Nat) (b : Builder) :
      Nat.repeat Builder.finish (k + 1) b = Nat.repeat Builder.finish k b.finish := by
    induction k with
    | zero => rfl
    | succ k ih => exact congrArg Builder.finish ih
  -- The depth is what both count down from.
  generalize hdepth : b.depth = count
  induction count generalizing b t with
  | zero =>
    have hstack : t.stack = [] := by
      rw [h.stack, openIds, List.eq_nil_of_length_eq_zero hdepth, opens]
    rw [TreeBuilder.close, if_pos hstack]
    exact h
  | succ count ih =>
    have hstack : t.stack ≠ [] := by
      rw [h.stack, openIds]
      rcases hopen : b.open_ with _ | ⟨n, ns⟩
      · rw [Builder.depth, hopen] at hdepth
        exact absurd hdepth.symm (Nat.succ_ne_zero _)
      · exact List.cons_ne_nil _ _
    rw [TreeBuilder.close, if_neg hstack, hrepeat]
    exact ih h.finish (by rw [length_open_finish, hdepth]; rfl)

end StoredIn

/-- After the same calls, the one builder stores what the other has. -/
theorem storedIn_after (calls : List (Call SyntaxError)) (source : String) :
    (after calls).StoredIn source (TreeBuilder.after source calls) := by
  have hstart : StoredIn {} source { source } :=
    { holds := ⟨rfl, rfl⟩, stack := rfl, root? := rfl, tokens := rfl, errors := rfl, source := rfl }
  exact hstart.foldl calls

/-- To end nodes is to note no error. -/
theorem errors_repeat_finish (b : Builder) (k : Nat) :
    (Nat.repeat finish k b).errors = b.errors := by
  induction k with
  | zero => rfl
  | succ k ih => exact (errors_call _ .finish).trans ih

end Builder

/-- **The tree that is linked stands for the document that is built** by the same calls. -/
theorem TreeBuilder.represents_build (calls : List (Call SyntaxError)) (source : String) :
    (after source calls).build.Represents ((Builder.after calls).build source) := by
  have h := (Builder.storedIn_after calls source).close
  have hopen := (Builder.after calls).open_repeat_finish
  have herrors := (Builder.after calls).errors_repeat_finish (Builder.after calls).depth
  have htrees : (Builder.after calls).trees = (Nat.repeat Builder.finish (Builder.after calls).depth
    (Builder.after calls)).done.reverse := rfl
  rw [TreeBuilder.build, Builder.build]
  simp only [htrees, ← herrors]
  generalize Nat.repeat Builder.finish (Builder.after calls).depth (Builder.after calls) = b at *
  generalize (after source calls).close = t at *
  have hslots : b.slots = Tree.slotsAll false none 0 0 b.done.reverse := by
    rw [Builder.slots, hopen, Builder.slotsBelow]
  have hread : b.tokens = Tree.tokensAll b.done.reverse := by
    rw [Builder.tokens, hopen, Builder.tokensBelow]
  have hnext : b.nextId = Tree.sizeAll b.done.reverse := by
    rw [Builder.nextId, hopen, Builder.next, Builder.sizeAll_reverse]
  obtain ⟨hholds, -, hroot, htokens, herrors', hsource⟩ := h
  rw [hslots] at hholds
  rw [hread] at htokens
  rw [hnext] at hroot
  generalize b.done.reverse = trees at *
  -- Without a tree there is a new cell, which is the file.
  cases trees with
  | nil =>
    rw [show t.root? = none from hroot]
    constructor
    case cells =>
      show (t.arena.cells.push _).toList = _
      rw [Array.toList_push, hholds.1]
      rfl
    case root => exact hholds.size_eq
    case source => exact hsource
    case tokens => exact Array.toList_inj.1 htokens
    case errors => rw [herrors']
  | cons c cs =>
    -- A tree has a node, and the first one of all is the root.
    have hpos : Tree.sizeAll (c :: cs) ≠ 0 := by
      have hc := (Node.mk 0 0 c).size_pos
      simp only [Node.size] at hc
      rw [Tree.sizeAll]
      omega
    rw [hroot, if_neg hpos]
    constructor
    case cells => exact hholds.1
    case root => rfl
    case source => exact hsource
    case tokens => exact Array.toList_inj.1 htokens
    case errors => rw [herrors']

/-! ### Nothing outside the arena -/

namespace TreeBuilder

variable {b : TreeBuilder}

/-- The numbers that a builder keeps are those of nodes, so it looks at no cell that is not there
and at no entry that the table does not have. -/
structure InRange (b : TreeBuilder) : Prop where
  /-- The open nodes are nodes. -/
  stack : ∀ i ∈ b.stack, i < b.arena.size
  /-- Every node has an entry in the table. -/
  table : b.lastChild.size = b.arena.size
  /-- The last children are nodes. -/
  last : ∀ last ∈ b.lastChild, ∀ i ∈ last, i < b.arena.size

theorem size_attach (id : Nat) : (b.attach id).arena.size = b.arena.size := by
  rw [attach]
  split
  · rfl
  · dsimp only
    split <;> exact Array.size_modify

/-- A link to a node of the arena leads nowhere else. -/
theorem InRange.attach (h : b.InRange) {id : Nat} (hid : id < b.arena.size) :
    (b.attach id).InRange := by
  have hsize := b.size_attach id
  constructor
  case stack => rw [(b.attach_fields id).1, hsize]; exact h.stack
  case table =>
    rw [hsize, ← h.table, TreeBuilder.attach]
    split
    · rfl
    · exact Array.size_setIfInBounds
  case last =>
    rw [hsize, TreeBuilder.attach]
    split
    · exact h.last
    · intro last hlast i hi
      rcases Array.mem_or_eq_of_mem_setIfInBounds hlast with hlast | rfl
      · exact h.last last hlast i hi
      · exact Option.some.inj hi ▸ hid

/-- A new cell is one more, and the link to it leads nowhere else. -/
theorem InRange.add (h : b.InRange) (c : Cell) :
    (b.add c).InRange ∧ (b.add c).arena.size = b.arena.size + 1 := by
  have hsize : (b.arena.push c).size = b.arena.size + 1 := Array.size_push ..
  have hpush : ({ b with arena := b.arena.push c, lastChild := b.lastChild.push none } :
      TreeBuilder).InRange := by
    constructor
    case stack => exact fun i hi ↦ hsize ▸ Nat.lt_succ_of_lt (h.stack i hi)
    case table => rw [Array.size_push, h.table, hsize]
    case last =>
      intro last hlast i hi
      rcases Array.mem_push.1 hlast with hlast | rfl
      · exact hsize ▸ Nat.lt_succ_of_lt (h.last last hlast i hi)
      · exact nomatch hi
  obtain ⟨hstack, htable, hlast⟩ := hpush.attach
    (Nat.lt_of_lt_of_eq (Nat.lt_succ_self _) hsize.symm)
  exact ⟨⟨hstack, htable, hlast⟩, (size_attach _).trans hsize⟩

/-- No call leads out of the arena. -/
theorem InRange.call (h : b.InRange) (c : Call SyntaxError) : (b.call c).InRange := by
  cases c with
  | start kind =>
    obtain ⟨hadd, hsize⟩ := h.add { kind, range := .emptyAt b.tokens.size }
    refine ⟨List.forall_mem_cons.2 ⟨?_, ?_⟩, hadd.table, hadd.last⟩
    · exact hsize ▸ Nat.lt_succ_self b.arena.size
    · exact fun i hi ↦ hsize ▸ Nat.lt_succ_of_lt (h.stack i hi)
  -- Ending a node changes a cell, but neither adds one nor takes one away.
  | finish =>
    rw [TreeBuilder.call, finish]
    split
    · exact h
    · rename_i hstack
      have hsize {i : Nat} {f : Cell → Cell} : (b.arena.modify i f).size = b.arena.size :=
        Array.size_modify
      refine ⟨fun i hi ↦ hsize ▸ h.stack i ?_, h.table.trans hsize.symm, ?_⟩
      · exact hstack ▸ List.mem_cons_of_mem _ hi
      · exact fun last hlast i hi ↦ hsize ▸ h.last last hlast i hi
  | token t =>
    obtain ⟨hstack, htable, hlast⟩ := (InRange.add (b := { b with tokens := b.tokens.push t })
      ⟨h.stack, h.table, h.last⟩ { kind := .token, range := ⟨b.tokens.size, b.tokens.size + 1⟩ }).1
    exact ⟨hstack, htable, hlast⟩
  | error e => exact ⟨h.stack, h.table, h.last⟩

/-- **No run of calls leads out of the arena.** -/
theorem inRange_after (source : String) (calls : List (Call SyntaxError)) :
    (after source calls).InRange := by
  have hrun (b : TreeBuilder) (h : b.InRange) : (calls.foldl call b).InRange := by
    induction calls generalizing b with
    | nil => exact h
    | cons c calls ih => exact ih _ (h.call c)
  exact hrun _ ⟨fun _ hi ↦ (List.not_mem_nil hi).elim, rfl, fun _ hl ↦
    (Array.not_mem_empty _ hl).elim⟩

end TreeBuilder

/-! ### Calls that make trees -/

namespace Builder

/-- The builder with some trees more below the innermost open node, and some errors more. -/
def grow (b : Builder) (cs : List Tree) (es : List SyntaxError) : Builder :=
  match b.open_ with
  | [] => { b with done := cs.reverse ++ b.done, errors := es.reverse ++ b.errors }
  | n :: ns =>
    { b with
      open_ := { n with children := cs.reverse ++ n.children } :: ns
      errors := es.reverse ++ b.errors }

/-- To grow twice is to grow once by both. -/
theorem grow_grow (b : Builder) (cs ds : List Tree) (es fs : List SyntaxError) :
    (b.grow cs es).grow ds fs = b.grow (cs ++ ds) (es ++ fs) := by
  rcases b with ⟨done, _ | ⟨n, ns⟩, errors⟩ <;>
    simp only [grow, List.reverse_append, List.append_assoc]

/-- Calls for trees leave the builder with these trees, and with no other node open. -/
theorem foldl_of_makes {calls : List (Call SyntaxError)} {cs : List Tree} {es : List SyntaxError}
    (h : TreeBuilder.Makes calls cs es) (b : Builder) : calls.foldl call b = b.grow cs es := by
  induction h generalizing b with
  | nothing => rcases b with ⟨done, _ | ⟨n, ns⟩, errors⟩ <;> rfl
  | token t => rcases b with ⟨done, _ | ⟨n, ns⟩, errors⟩ <;> rfl
  | error e => rcases b with ⟨done, _ | ⟨n, ns⟩, errors⟩ <;> rfl
  | append _ _ hx hy => rw [List.foldl_append, hx, hy, grow_grow]
  | @node k xs cs es _ h =>
    rw [List.foldl_cons, List.foldl_append, h]
    show attach ⟨b.done, b.open_, es.reverse ++ b.errors⟩ (.node k (cs.reverse ++ []).reverse) = _
    rw [List.append_nil, List.reverse_reverse]
    rcases b with ⟨done, _ | ⟨n, ns⟩, errors⟩ <;> rfl

end Builder

/-! ### What any calls build -/

namespace SyntaxTree

/-- The token that was added as a node, if it was added as one. -/
def added? (calls : List (Call SyntaxError)) (i : Nat) : Option Token :=
  (Builder.history calls)[i]?.bind (·.content.getRight?)

open Builder in
/-- What comes out of a builder after some calls. -/
structure IsBuilt (t : SyntaxTree) (calls : List (Call SyntaxError)) : Prop where
  /-- There is one node for each that was begun, numbered in the order in which they were begun. -/
  ids : (history calls).map Beginning.id = List.range t.arena.size
  /-- A node stands for what was begun. -/
  kinds : t.arena.cells.toList.map Cell.kind =
    (history calls).map fun e ↦ e.content.elim id fun _ ↦ .token
  /-- The root is the first of them. -/
  root : t.root = 0
  /-- Where nothing was begun, it is a new file that has no children. -/
  empty : begun [] 0 calls = [] → t.arena.cells = #[{ kind := .file, range := .emptyAt 0 }]
  /-- From the first child of a node the siblings lead to an end, and on the way through those that
  were begun while the node was the innermost of the open ones, in the order in which they were
  begun. -/
  children : ∀ p < t.arena.size,
    Enumerates t.arena.nextChild (t.arena.cell p).firstChild (childIds p (history calls)) ∧
      t.arena.children p = childIds p (history calls)
  /-- A child is a node with a greater number than its parent. -/
  parent_lt : ∀ p < t.arena.size, ∀ c ∈ t.arena.children p, p < c ∧ c < t.arena.size
  /-- No node is a child of two. -/
  parent : ∀ p < t.arena.size, ∀ q < t.arena.size, ∀ c ∈ t.arena.children p,
    c ∈ t.arena.children q → p = q
  /-- Of two children of a node the left has the smaller number. -/
  siblings : ∀ p < t.arena.size, (t.arena.children p).Pairwise (· < ·)
  /-- The tokens are those that were added. -/
  tokens : t.tokens.toList = calls.filterMap Call.token?
  /-- The leaf of a token covers this token alone. -/
  leaves : ∀ i < t.arena.size, ∀ x ∈ added? calls i, (t.arena.cell i).range.stop =
    (t.arena.cell i).range.first + 1 ∧ t.tokens[(t.arena.cell i).range.first]? = some x
  /-- The listing of what is below a node comes to an end. -/
  preorder : ∀ p < t.arena.size, Enumerates t.arena.nextInPreorder [p] (t.arena.preorder p)
  /-- The tokens added below a node are those of its range, in their order and each at its place. -/
  covers : ∀ p < t.arena.size, ((t.arena.preorder p).filterMap fun i ↦
      (added? calls i).map (·, (t.arena.cell i).range.first)) =
    (t.tokens.toList.zipIdx.drop (t.arena.cell p).range.first).take (t.arena.cell p).range.length
  /-- The range of a node lies within the tokens. -/
  range_le : ∀ p < t.arena.size, (t.arena.cell p).range.first ≤ (t.arena.cell p).range.stop ∧
    (t.arena.cell p).range.stop ≤ t.tokens.size
  /-- The errors are those that were noted. -/
  errors_perm : t.errors.Perm (calls.filterMap Call.error?)
  /-- No error comes before one that begins earlier. -/
  errors_ordered : t.errors.Pairwise fun e f ↦ e.span.start.le f.span.start = true
  /-- Errors that begin at one place stand as they were noted. -/
  errors_stable : ∀ p : Position, t.errors.filter (·.span.start = p) =
    (calls.filterMap Call.error?).filter (·.span.start = p)

/-! ### Reading the stored tree -/

namespace Represents

open Builder

variable {t : SyntaxTree} {d : Document} {n : Node} {calls : List (Call SyntaxError)}
  (h : t.Represents d) (hcalls : noteAll none 0 d.trees = history calls)

include hcalls in
/-- The nodes of the document are those that the calls began, number by number. -/
theorem map_content_nodes : d.nodes.map (fun n ↦ (n.id, n.tree.content)) =
    (history calls).map fun e ↦ (e.id, e.content) := by
  rw [Document.nodes, map_preorderAll_place none, hcalls]

include h hcalls

theorem map_id_history : (history calls).map Beginning.id = List.range t.arena.size := by
  have hids := congrArg (List.map Prod.fst) (map_content_nodes hcalls)
  rw [List.map_map, List.map_map] at hids
  exact hids.symm.trans h.map_id

/-- Each cell is of the kind that was begun. -/
theorem map_kind_cells : t.arena.cells.toList.map Cell.kind =
    (history calls).map fun e ↦ e.content.elim id fun _ ↦ .token := by
  have hkinds := congrArg (List.map fun c ↦ c.2.elim id fun _ ↦ NodeKind.token)
    (map_content_nodes hcalls)
  rw [List.map_map, List.map_map] at hkinds
  rw [h.cells_eq, List.map_map]
  refine Eq.trans (List.map_congr_left fun n hn ↦ ?_) hkinds
  rw [Function.comp_apply, h.kind_eq hn]
  rcases n with ⟨id, first, t | ⟨k, cs⟩⟩ <;> rfl

/-- A node was added as a token if it is a leaf of this token. -/
theorem added?_id (hn : n ∈ d.nodes) : added? calls n.id = n.tree.token? := by
  have hbegun := congrArg (·[n.id]?) (map_content_nodes hcalls)
  simp only [List.getElem?_map, h.getElem?_nodes hn, Option.map_some] at hbegun
  obtain ⟨e, he, hcontent⟩ := Option.map_eq_some_iff.1 hbegun.symm
  rw [added?, he, Option.bind_some, (Prod.mk.inj hcontent).2]
  cases n.tree <;> rfl

omit h in
/-- The children of a node are what was begun while it was the innermost open one. -/
theorem map_id_children (hn : n ∈ d.nodes) :
    n.children.map Node.id = childIds n.id (history calls) := by
  rw [← hcalls]
  exact (childIds_noteAll (Option.some_ne_none _).symm d.trees 0 0 hn).symm

/-- The leaf of a token covers the place where the token is kept. -/
theorem range_of_added? (hn : n ∈ d.nodes) {x : Token} (hx : x ∈ added? calls n.id) :
    (t.arena.cell n.id).range.stop = (t.arena.cell n.id).range.first + 1 ∧
      t.tokens[(t.arena.cell n.id).range.first]? = some x := by
  rw [h.added?_id hcalls hn] at hx
  rw [h.range_eq hn, h.tokens]
  obtain ⟨us, vs, htokens, hfirst⟩ := Node.standsIn_of_mem_nodes hn
  obtain ⟨id, first, y | ⟨k, cs⟩⟩ := n
  · obtain rfl := Option.some.inj hx
    refine ⟨rfl, ?_⟩
    show d.tokens[first]? = _
    rw [← Array.getElem?_toList, htokens, show first = us.length from hfirst.symm]
    simp [Tree.tokens]
  · exact nomatch hx

/-- **A node covers the tokens that were added below it** and no others. -/
theorem filterMap_added? (hn : n ∈ d.nodes) : ((t.arena.preorder n.id).filterMap fun i ↦
      (added? calls i).map (·, (t.arena.cell i).range.first)) =
    (t.tokens.toList.zipIdx.drop (t.arena.cell n.id).range.first).take
      (t.arena.cell n.id).range.length := by
  rw [h.preorder_eq hn, h.range_eq hn, h.tokens, List.filterMap_map,
    ← Document.filterMap_leaf_preorder hn]
  refine List.filterMap_congr fun m hm ↦ ?_
  have hm := Node.mem_nodes_of_mem_preorder hn hm
  show (added? calls m.id).map _ = m.leaf?
  rw [h.added?_id hcalls hm, h.range_eq hm]
  rfl

end Represents

end SyntaxTree

namespace TreeBuilder

open Builder

/-- **Any calls build a forest**, and its nodes, tokens and errors are those of the calls. -/
theorem isBuilt_build (calls : List (Call SyntaxError)) (source : String) :
    (after source calls).build.IsBuilt calls := by
  have hrep := represents_build calls source
  have hcalls := noteAll_trees_build calls source
  have hempty (h : begun [] 0 calls = []) := trees_build_of_begun_eq_nil h source
  have herrors : ((Builder.after calls).build source).errors =
      (calls.filterMap Call.error?).mergeSort fun e f ↦ e.span.start.le f.span.start :=
    congrArg (List.mergeSort · _) (reverse_errors_after calls)
  have htrans (e f g : SyntaxError) (hef : e.span.start.le f.span.start = true)
      (hfg : f.span.start.le g.span.start = true) : e.span.start.le g.span.start = true :=
    Position.le_trans hef hfg
  have htotal (e f : SyntaxError) :
      (e.span.start.le f.span.start || f.span.start.le e.span.start) = true :=
    Position.le_total ..
  -- From here on nothing matters but that the tree stands for a document with these nodes.
  generalize (after source calls).build = t at hrep
  generalize (Builder.after calls).build source = d at hrep hcalls hempty herrors
  have hnode : ∀ i < t.arena.size, ∃ n ∈ d.nodes, n.id = i := fun i ↦ (hrep.mem_nodes_iff i).2
  constructor
  case ids => exact hrep.map_id_history hcalls
  case kinds => exact hrep.map_kind_cells hcalls
  case root => exact hrep.root
  case empty =>
    intro hnone
    rw [← Array.toList_inj, hrep.cells, hempty hnone]
    rfl
  case children =>
    intro p hp
    obtain ⟨n, hn, rfl⟩ := hnode p hp
    rw [← SyntaxTree.Represents.map_id_children hcalls hn]
    exact ⟨hrep.enumerates_children hn, hrep.children_eq hn⟩
  case parent_lt => exact fun p hp c hc ↦ hrep.lt_of_mem_children hp hc
  case parent => exact fun p hp q hq c hcp hcq ↦ hrep.eq_of_mem_children hp hq hcp hcq
  case siblings => exact fun p hp ↦ hrep.pairwise_children hp
  case tokens =>
    rw [hrep.tokens, d.toList_tokens, tokensAll_eq none d.trees 0, hcalls, filterMap_history]
  case leaves =>
    intro i hi x hx
    obtain ⟨n, hn, rfl⟩ := hnode i hi
    exact hrep.range_of_added? hcalls hn hx
  case preorder => exact fun p hp ↦ hrep.enumerates_preorder_self hp
  case covers =>
    intro p hp
    obtain ⟨n, hn, rfl⟩ := hnode p hp
    exact hrep.filterMap_added? hcalls hn
  case range_le =>
    intro p hp
    obtain ⟨n, hn, rfl⟩ := hnode p hp
    rw [hrep.range_eq hn, hrep.tokens]
    exact Document.range_le_of_mem_nodes hn
  case errors_perm =>
    rw [hrep.errors, herrors]
    exact List.mergeSort_perm ..
  case errors_ordered =>
    rw [hrep.errors, herrors]
    exact List.pairwise_mergeSort htrans htotal _
  case errors_stable =>
    intro p
    rw [hrep.errors, herrors]
    refine filter_mergeSort htrans htotal (fun e f he hf ↦ ?_) _
    rw [of_decide_eq_true he, of_decide_eq_true hf, Position.le_self]

end TreeBuilder

end BslLint
