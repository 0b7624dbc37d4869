import BslLint.Proofs.Grammar.Declarations
import BslLint.Proofs.Syntax.Reformatting
import BslLint.Proofs.Token.Spacing

/-!
# The grammar is accepted whole

Whatever the grammar of modules derives is a module: written down with spaces between its tokens it
is parsed without an error, and the tree is that of the derivation (`Document.accepts_modules`). The
tokens may have any spelling that their kinds allow.

This puts together what is known of tokens, which are cut out of such a text as they were written
(`Scan.ofText_spaced`), and of the parser, which reads what is derived
(`Grammar.SourceModule.reads_file`).
-/

namespace BslLint.Document

open Grammar Grammar.Form

/-- **Every derived module is parsed as it was derived.** -/
theorem accepts_modules {w : List Token} {t : Tree} (h : SourceModule w [t])
    (hspelled : ∀ u ∈ w, u.IsSpelled) :
    (ofText (Token.spaced w)).errors = [] ∧
      ∃ t', (ofText (Token.spaced w)).trees = [t'] ∧ t'.Isomorphic t := by
  obtain ⟨hunknown, hsigns⟩ := Scan.ofText_spaced hspelled
  exact isomorphic_of_reads hunknown hsigns h.reads_file

/-- A variable, a procedure, and in it a conditional with a statement that goes without its
semicolon. -/
theorem accepts_variable_and_procedure :
    (ofText
      "Перем а ; Процедура п ( ) Если а Тогда ~ м : Возврат КонецЕсли КонецПроцедуры").errors =
        [] := by
  -- The derivation from the inside out; the places of its tokens do not matter.
  let token (kind : Token.Kind) (text : String) : Token := ⟨kind, text, .start, .start⟩
  have hvalue : Derives .value [token .identifier "а"] _ := .complex (.name rfl) .modifiers_nil
  have hmember : Derives .member ([] ++ [token .identifier "а"]) _ := .member nofun hvalue
  have hreturn : SimpleAction [token (.keyword .return_) "Возврат"] _ := .returnNothing rfl
  have hlabel : Label [token .tilde "~", token .identifier "м", token .colon ":"] _ :=
    .some rfl rfl rfl
  have hlast := DerivesCode.last hlabel (.action_some (.simple hreturn)) (List.cons_ne_nil _ _)
  have hif := DerivesCode.conditional (i := token (.keyword .if_) "Если")
    (t := token (.keyword .then_) "Тогда") (e := token (.keyword .endIf) "КонецЕсли") rfl
    (.expression hmember .row_nil) rfl (.block (.singleton hlast)) .elsifs_nil .otherwise_none rfl
  have hcode := DerivesCode.block (.singleton (.last .none (.action_some hif) (by simp)))
  have hparams := ParamList.empty (l := token .leftParen "(") (r := token .rightParen ")") rfl rfl
  have hsub := Sub.procedure (.mk (f := token (.keyword .procedure) "Процедура")
    (n := token .identifier "п") (x := token (.keyword .endProcedure) "КонецПроцедуры")
    .nil rfl rfl hparams .none .none hcode rfl)
  have hvariable := ModuleVariable.mk (n := token .identifier "а") rfl .none
  have hvar := ModuleVar.mk (v := token (.keyword .var) "Перем") (s := token .semicolon ";")
    .nil rfl (.single hvariable) rfl
  have hmodule := SourceModule.mk (.some hvar .nil) (.some hsub .nil) (.block .nil)
  -- Only the spelling of the tokens is computed.
  obtain ⟨haccepted, -⟩ := accepts_modules hmodule (by
    simp only [Token.IsSpelled, lexemes_eq_lexemesUpTo_length]
    decide +kernel)
  exact (congrArg (fun text ↦ (ofText text).errors = []) (by decide +kernel)).mp haccepted

end BslLint.Document
