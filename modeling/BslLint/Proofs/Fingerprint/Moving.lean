import BslLint.Proofs.Fingerprint.Blocks
import BslLint.Proofs.Grammar.Procedures
import BslLint.Proofs.Syntax.Reformatting

/-!
# Procedures keep their fingerprints

A fingerprint is there to recognise a procedure after it has been moved. For that it must not depend
on what stands around the procedure, although the parser looks ahead without a bound in places. In
texts without errors it does not: **the text of a procedure, parsed alone, is that procedure**
(`Document.procedures_keep_identity`). So wherever a procedure is moved to, and in whatever order
procedures come, their fingerprints stay.

Two things carry this. The lexemes of a procedure are the lexemes of its text (`Cuts`), and its
tokens are a file that consists of this procedure (`Grammar.IsSub`).
-/

namespace BslLint

namespace Document

variable {d : Document} {s : Tree}

/-- The only block of a module that is nothing but a procedure. -/
theorem exists_blocks_of_isomorphic {t : Tree} (hd : d.trees = [t]) (hs : s.kind = .sub)
    (hne : s.tokens ≠ []) (ht : t.Isomorphic (.node .file [.node .subs [s], Grammar.noCode])) :
    ∃ b, d.blocks = [b] ∧ b.node.kind = .sub ∧ b.node.tree.Isomorphic s := by
  -- The tree is told down to the procedure, and so are the numbers of its nodes.
  obtain ⟨_, rfl, hparts⟩ := Tree.isomorphic_node.1 ht
  obtain ⟨_, _, rfl, hpart, hothers⟩ := Tree.allIsomorphic_cons.1 hparts
  obtain ⟨_, rfl, hcode⟩ := Tree.allIsomorphic_singleton.1 hothers
  obtain ⟨_, rfl, hsubs⟩ := Tree.isomorphic_node.1 hpart
  obtain ⟨s', rfl, hs'⟩ := Tree.allIsomorphic_singleton.1 hsubs
  obtain ⟨_, rfl, hblocks⟩ := Tree.isomorphic_node.1 hcode
  obtain ⟨_, rfl, hblock⟩ := Tree.allIsomorphic_singleton.1 hblocks
  obtain ⟨_, rfl, hnone⟩ := Tree.isomorphic_node.1 hblock
  obtain rfl := Tree.allIsomorphic_nil.1 hnone
  have hkind : s'.kind = .sub := hs'.kind_eq.trans hs
  have hne' : s'.tokens ≠ [] := by
    rw [← List.length_pos_iff, Tree.length_tokens, hs'.width_eq, ← Tree.length_tokens]
    exact List.length_pos_iff.2 hne
  have hstands : Node.StandsIn ⟨2, 0, s'⟩ d := by
    refine ⟨[], [], ?_, rfl⟩
    rw [d.toList_tokens, hd]
    simp [Tree.tokensAll, Tree.tokens]
  have hpart : Block.nodesOfPart ⟨1, 0, .node .subs [s']⟩ = [⟨2, 0, s'⟩] := by
    show List.filter (fun n : Node ↦ n.kind = .sub) [⟨2, 0, s'⟩] = _
    exact List.filter_cons_of_pos (decide_eq_true hkind)
  obtain ⟨b, hb, hnode⟩ := Block.exists_ofNode? hstands hne'
  have hblocks : d.blocks = [b] := by
    rw [blocks, root, hd]
    show (Block.nodesOfPart _ ++ [(⟨_, _, .node .codeBlock []⟩ : Node)]).filterMap _ = _
    rw [hpart, List.singleton_append, List.filterMap_cons_some hb,
      List.filterMap_cons_none (Block.ofNode?_of_nil rfl)]
    rfl
  refine ⟨b, hblocks, ?_, ?_⟩ <;> rw [hnode]
  · exact hkind
  · exact hs'

variable {text : String}

/-- The text of a procedure, parsed alone, is the file that consists of the procedure. -/
theorem isomorphic_of_sub (h : (ofText text).errors = []) {n : Node} (hn : n ∈ (ofText text).nodes)
    (hkind : n.kind = .sub) : (ofText ((ofText text).text n)).errors = [] ∧
      ∃ t, (ofText ((ofText text).text n)).trees = [t] ∧
        t.Isomorphic (.node .file [.node .subs [n.tree], Grammar.noCode]) := by
  obtain ⟨t, ht, hwithin⟩ := Node.within_of_mem_nodes hn
  have hsub : Grammar.IsSub n.tree :=
    Grammar.everywhere_isSub (errors_eq_nil_iff.1 h).2 t ht n.tree hwithin hkind
  have hcut := isCut_ofText h
  have hstands := Node.standsIn_of_mem_nodes hn
  have hrange := rangeText_eq hstands
  obtain ⟨us, vs, hsplit, -⟩ := hstands
  obtain ⟨before, ls, after, hlexemes, hsigns, hframed, hspan⟩ :=
    hcut.exists_lexemes ⟨us, vs, by rw [hsplit, List.append_assoc]⟩ hsub.tokens_ne_nil
  -- The procedure ends with a token, so its text alone is cut into the lexemes it had.
  have hknown : ∀ l ∈ ls, l.kind ≠ .unknown := fun l hl ↦ hcut.kind_ne_unknown l <| by
    rw [hlexemes]
    exact List.mem_append_right _ (List.mem_append_left _ hl)
  have hcuts : Cuts (textOf ls) ls := cuts_of_lexemes hlexemes hknown fun l hl ↦ by
    obtain ⟨k, hk⟩ := hframed.last l hl
    rw [hk]
    exact nofun
  rw [Document.text, hrange, hspan]
  have hown : lexemes (String.ofList (textOf ls)).toList = ls := by
    rw [String.toList_ofList, hcuts.lexemes_eq]
  obtain ⟨hunknown, hown⟩ := Scan.ofText_of_lexemes hown hknown
  exact isomorphic_of_reads hunknown (hown.trans hsigns.symm) hsub.reads_file

/-- Alone, a procedure is the only block, and it has the canonical form that it had. -/
theorem exists_block_of_sub (h : (ofText text).errors = []) {n : Node}
    (hn : n ∈ (ofText text).nodes)
    (hkind : n.kind = .sub) : (ofText ((ofText text).text n)).errors = [] ∧
      ∃ b, (ofText ((ofText text).text n)).blocks = [b] ∧ b.node.kind = .sub ∧
        b.node.tree.canonical = n.tree.canonical := by
  obtain ⟨herrors, t, ht, hiso⟩ := isomorphic_of_sub h hn hkind
  obtain ⟨u, hu, hwithin⟩ := Node.within_of_mem_nodes hn
  have hsub := Grammar.everywhere_isSub (errors_eq_nil_iff.1 h).2 u hu n.tree hwithin hkind
  obtain ⟨b, hb, hbkind, hbiso⟩ := exists_blocks_of_isomorphic ht hkind hsub.tokens_ne_nil hiso
  exact ⟨herrors, b, hb, hbkind, (Tree.canonical_eq_iff _ _).2 hbiso⟩

/-- The fingerprint that a text would have as a procedure. -/
def fingerprintOf (text : String) : String :=
  ((ofText text).blocks.map Block.fingerprint).headD ""

/-- What identifies a procedure is told by its text alone. -/
theorem fingerprint_of_sub (h : (ofText text).errors = []) {n : Node}
    (hn : n ∈ (ofText text).nodes) (hkind : n.kind = .sub) :
    n.tree.fingerprint = fingerprintOf ((ofText text).text n) := by
  obtain ⟨-, b, hb, -, hcanonical⟩ := exists_block_of_sub h hn hkind
  rw [fingerprintOf, hb, Tree.fingerprint, ← hcanonical]
  rfl

/-- The blocks that are procedures. -/
def procedures (d : Document) : List Block := d.blocks.filter (·.node.kind = .sub)

/-- **Procedures of texts without errors are the same wherever they stand.** The text of a procedure
is parsed without errors as one block, with the canonical form that the procedure has in its module.
So procedures with the same text have the same fingerprint in all such modules, and where the
procedures of two modules differ in their order alone, so do their fingerprints. -/
theorem procedures_keep_identity :
    (∀ text, (ofText text).errors = [] → ∀ n ∈ (ofText text).nodes, n.kind = .sub →
      (ofText ((ofText text).text n)).errors = [] ∧
        ∃ b, (ofText ((ofText text).text n)).blocks = [b] ∧ b.node.kind = .sub ∧
          b.node.tree.canonical = n.tree.canonical) ∧
    ∀ text text', (ofText text).errors = [] → (ofText text').errors = [] →
      (∀ b ∈ (ofText text).procedures, ∀ b' ∈ (ofText text').procedures,
        (ofText text).text b.node = (ofText text').text b'.node → b.fingerprint = b'.fingerprint) ∧
      (((ofText text).procedures.map fun b ↦ (ofText text).text b.node).Perm
          ((ofText text').procedures.map fun b ↦ (ofText text').text b.node) →
        ((ofText text).procedures.map Block.fingerprint).Perm
          ((ofText text').procedures.map Block.fingerprint)) := by
  have hfingerprint : ∀ {text}, (ofText text).errors = [] → ∀ b ∈ (ofText text).procedures,
      b.fingerprint = fingerprintOf ((ofText text).text b.node) := by
    intro text h b hb
    obtain ⟨hb, hkind⟩ := List.mem_filter.1 hb
    exact fingerprint_of_sub h (Block.node_mem_nodes hb) (of_decide_eq_true hkind)
  refine ⟨fun text h n hn hkind ↦ exists_block_of_sub h hn hkind, fun text text' h h' ↦ ⟨?_, ?_⟩⟩
  · intro b hb b' hb' htext
    rw [hfingerprint h b hb, hfingerprint h' b' hb', htext]
  · -- Both lists of fingerprints are images of the lists of texts.
    intro hperm
    have hmap : ∀ {text}, (ofText text).errors = [] →
        (ofText text).procedures.map Block.fingerprint =
          ((ofText text).procedures.map fun b ↦ (ofText text).text b.node).map fingerprintOf := by
      intro text h
      rw [List.map_map]
      exact List.map_congr_left (hfingerprint h)
    rw [hmap h, hmap h']
    exact hperm.map fingerprintOf

/-- A procedure with an annotation and an assignment. -/
def movedProcedure : String := "&А Procedure P()A=1;EndProcedure"

/-- A function that raises an error with arguments. -/
def movedFunction : String := "Function F()Raise(1,2);EndFunction"

/-- A procedure and a function keep their fingerprints when they change places. -/
theorem exchanged_procedures_keep_identity :
    (∃ n ∈ (ofText (movedProcedure ++ "\n" ++ movedFunction)).nodes, n.kind = .sub ∧
      (ofText ((ofText (movedProcedure ++ "\n" ++ movedFunction)).text n)).errors = []) ∧
    ((ofText (movedProcedure ++ "\n" ++ movedFunction)).procedures.map Block.fingerprint).Perm
      ((ofText (movedFunction ++ "\n" ++ movedProcedure)).procedures.map Block.fingerprint) := by
  -- The texts of the blocks are computed, but not their fingerprints.
  have h : (ofText (movedProcedure ++ "\n" ++ movedFunction)).errors = [] ∧
      (ofText (movedProcedure ++ "\n" ++ movedFunction)).procedures.map (fun b ↦
        (ofText (movedProcedure ++ "\n" ++ movedFunction)).text b.node) =
          [movedProcedure, movedFunction] := by
    rw [ofText_eq_evaluated]
    decide +kernel
  have h' : (ofText (movedFunction ++ "\n" ++ movedProcedure)).errors = [] ∧
      (ofText (movedFunction ++ "\n" ++ movedProcedure)).procedures.map (fun b ↦
        (ofText (movedFunction ++ "\n" ++ movedProcedure)).text b.node) =
          [movedFunction, movedProcedure] := by
    rw [ofText_eq_evaluated]
    decide +kernel
  constructor
  · obtain ⟨b, hb, -⟩ := List.mem_map.1 (h.2 ▸ List.mem_cons_self)
    obtain ⟨hb, hkind⟩ := List.mem_filter.1 hb
    exact ⟨b.node, Block.node_mem_nodes hb, of_decide_eq_true hkind,
      (procedures_keep_identity.1 _ h.1 b.node (Block.node_mem_nodes hb)
        (of_decide_eq_true hkind)).1⟩
  · refine (procedures_keep_identity.2 _ _ h.1 h'.1).2 ?_
    rw [h.2, h'.2]
    exact .swap ..

end Document

end BslLint
