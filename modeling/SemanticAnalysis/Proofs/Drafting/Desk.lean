import Mathlib.Data.List.Nodup
import Mathlib.Logic.Relation
import SemanticAnalysis.Draft
import SemanticAnalysis.Proofs.Contents
/-!
Making trees piece by piece. Whoever writes a program by hand makes its parts one after the other, in any order in
which the pieces of a part come before the part. Each expression and each statement is placed on a line that nothing
had before, and no piece is used twice. Then no two of them have the same place, whatever was made and in whatever
order, and every expression stands below its operands.
-/
namespace SemanticAnalysis

namespace Drafting
open SemanticAnalysis.Tree

inductive Part where
  | expr (e : Expr)
  | stmt (s : Stmt)
  | block (b : Block)
  | member (decl : MemberDecl)
  | item (i : Item)
  | module (m : Module)

namespace Part

def pieces : Part → List Part
  | .expr e => e.operands.map .expr
  | .stmt (.expr value _) => [.expr value]
  | .stmt (.variable decl) => decl.initializer.toList.map .expr
  | .stmt (.assign target value _) => [.expr target, .expr value]
  | .stmt (.ret value _) => value.toList.map .expr
  | .stmt (.branch condition thenBranch elseBranch _) =>
    .expr condition :: .block thenBranch :: elseBranch.toList.map .block
  | .stmt (.block (.mk stmts _)) => stmts.map .stmt
  | .block (.mk stmts _) => stmts.map .stmt
  | .member decl => decl.default.toList.map .expr
  | .item (.function decl) => decl.body.toList.map .block
  | .item (.variable decl) => decl.initializer.toList.map .expr
  | .item (.struct decl) => decl.members.map .member
  | .module m => m.items.map .item

def contents : Part → List Content
  | .expr e => e.contents
  | .stmt s => s.contents
  | .block b => b.contents
  | .member decl => decl.contents
  | .item i => i.contents
  | .module m => m.contents

def own : Part → List Content
  | .expr e => [.expr e]
  | .stmt s => [.stmt s]
  | _ => []

def places (part : Part) : List Span := part.own.map Content.span

theorem contents_split (part : Part) : part.contents = part.pieces.flatMap contents ++ part.own := by
  cases part with
  | expr e =>
    rw [pieces, List.flatMap_map, contents, Expr.contents, within_split, List.map_append, Expr.inner, List.map_flatMap]
    rfl
  | stmt s =>
    cases s with
    | block body =>
      cases body
      simp [contents, pieces, own, Stmt.contents, Block.contents, all_contents_flat, List.flatMap_map]
    | _ => simp [contents, pieces, own, Stmt.contents, Expr.optionContents, option_contents_flat, List.flatMap_map]
  | block b =>
    cases b
    simp [contents, pieces, own, Block.contents, all_contents_flat, List.flatMap_map]
  | member decl => simp [contents, pieces, own, MemberDecl.contents, Expr.optionContents, List.flatMap_map]
  | item i =>
    cases i <;>
      simp [contents, pieces, own, Item.contents, Expr.optionContents, option_contents_flat, List.flatMap_map]
  | module m => simp [contents, pieces, own, Module.contents, List.flatMap_map]

end Part

/-- The next line, and the parts that were made and that nothing was made of yet. -/
structure Desk where
  line : Nat := 1
  parts : List Part := []

namespace Desk

def contents (d : Desk) : List Content := d.parts.flatMap Part.contents

/-- One part more, or one line less for what is neither an expression nor a statement: a name, a type, a parameter,
an import. -/
inductive Step : Desk → Desk → Prop where
  | place {line : Nat} {parts rest : List Part} {part : Part} (own : part.places = [⟨line, 1, 1⟩])
      (taken : parts.Perm (part.pieces ++ rest)) : Step ⟨line, parts⟩ ⟨line + 1, part :: rest⟩
  | assemble {line : Nat} {parts rest : List Part} {part : Part} (own : part.places = [])
      (taken : parts.Perm (part.pieces ++ rest)) : Step ⟨line, parts⟩ ⟨line, part :: rest⟩
  | skip {line : Nat} {parts : List Part} : Step ⟨line, parts⟩ ⟨line + 1, parts⟩

/-- No two expressions or statements share a place, all lines were used, and lines rise from operands to what is made
of them. -/
structure Tidy (d : Desk) : Prop where
  started : 1 ≤ d.line
  apart : (d.contents.map Content.span).Nodup
  used : ∀ x ∈ d.contents, 1 ≤ x.span.line ∧ x.span.line < d.line
  rising : ∀ e, .expr e ∈ d.contents → ∀ i ∈ e.inner, i.span.line < e.span.line

theorem tidy_start : Tidy {} where
  started := Nat.le_refl 1
  apart := List.nodup_nil
  used _ listed := absurd listed List.not_mem_nil
  rising _ listed := absurd listed List.not_mem_nil

section Make
variable {line next : Nat} {parts rest : List Part} {part : Part}

theorem made_contents (taken : parts.Perm (part.pieces ++ rest)) :
    (contents ⟨next, part :: rest⟩).Perm (part.own ++ contents ⟨line, parts⟩) := by
  have before : (contents ⟨line, parts⟩).Perm (part.pieces.flatMap Part.contents ++ rest.flatMap Part.contents) :=
    List.flatMap_append ▸ taken.flatMap_right _
  change (part.contents ++ rest.flatMap Part.contents).Perm _
  rw [part.contents_split]
  exact (List.perm_append_comm.append_right _).trans (List.append_assoc .. ▸ before.symm.append_left _)

theorem make_tidy (tidy : Tidy ⟨line, parts⟩) (taken : parts.Perm (part.pieces ++ rest)) (later : line ≤ next)
    (apart : part.places.Nodup) (own : ∀ x ∈ part.own, x.span.line = line ∧ line < next) :
    Tidy ⟨next, part :: rest⟩ := by
  have all : (contents ⟨next, part :: rest⟩).Perm (part.own ++ contents ⟨line, parts⟩) := made_contents taken
  refine ⟨Nat.le_trans tidy.started later, ?_, ?_, ?_⟩
  · rw [(all.map Content.span).nodup_iff, List.map_append]
    refine List.Nodup.append apart tidy.apart (fun span new old => ?_)
    obtain ⟨x, mine, rfl⟩ := List.mem_map.mp new
    obtain ⟨y, there, same⟩ := List.mem_map.mp old
    have above := (tidy.used y there).2
    rw [same, (own x mine).1] at above
    exact Nat.lt_irrefl line above
  · intro x listed
    rcases List.mem_append.mp (all.mem_iff.mp listed) with new | old
    · exact (own x new).1 ▸ ⟨tidy.started, (own x new).2⟩
    · exact ⟨(tidy.used x old).1, Nat.lt_of_lt_of_le (tidy.used x old).2 later⟩
  · intro e listed i inside
    rcases List.mem_append.mp (all.mem_iff.mp listed) with new | old
    · cases part with
      | expr made =>
        cases List.mem_singleton.mp new
        have among : .expr i ∈ contents ⟨line, parts⟩ := by
          refine (taken.flatMap_right Part.contents).mem_iff.mpr ?_
          rw [List.flatMap_append, Part.pieces, List.flatMap_map]
          obtain ⟨operand, direct, deep⟩ := List.mem_flatMap.mp inside
          exact List.mem_append_left _ (List.mem_flatMap.mpr ⟨operand, direct, List.mem_map_of_mem deep⟩)
        exact Nat.lt_of_lt_of_eq (tidy.used _ among).2 (own _ new).1.symm
      | stmt s => cases List.mem_singleton.mp new
      | _ => cases new
    · exact tidy.rising e old i inside

end Make

theorem step_tidy {d d' : Desk} (tidy : d.Tidy) (step : Step d d') : d'.Tidy := by
  cases step with
  | @place line parts rest part own taken =>
    refine make_tidy tidy taken (Nat.le_succ line) (own ▸ List.nodup_singleton _) (fun x mine => ?_)
    have here : x.span ∈ part.places := List.mem_map_of_mem mine
    rw [own, List.mem_singleton] at here
    exact ⟨by rw [here], Nat.lt_succ_self line⟩
  | assemble own taken =>
    refine make_tidy tidy taken (Nat.le_refl _) (own ▸ List.nodup_nil) (fun x mine => ?_)
    rw [List.map_eq_nil_iff.mp own] at mine
    cases mine
  | @skip line =>
    refine ⟨Nat.le_succ_of_le tidy.started, tidy.apart, fun x listed => ?_, tidy.rising⟩
    exact ⟨(tidy.used x listed).1, Nat.lt_succ_of_lt (tidy.used x listed).2⟩

theorem run_tidy {d d' : Desk} (tidy : d.Tidy) (run : Relation.ReflTransGen Step d d') : d'.Tidy := by
  induction run with
  | refl => exact tidy
  | tail _ step ih => exact step_tidy ih step

end Desk

/-- Modules made at one desk, each of them listed once. `line` is the first line that was not used. -/
def Made (line : Nat) (modules : List Module) : Prop :=
  ∃ parts rest, Relation.ReflTransGen Desk.Step {} ⟨line, parts⟩ ∧ parts.Perm (modules.map .module ++ rest)

theorem made_tidy {line : Nat} {modules : List Module} (made : Made line modules) :
    Desk.Tidy ⟨line, modules.map .module⟩ := by
  obtain ⟨parts, rest, run, split⟩ := made
  have tidy := Desk.run_tidy Desk.tidy_start run
  have all : (Desk.contents ⟨line, parts⟩).Perm
      ((modules.map Part.module).flatMap Part.contents ++ rest.flatMap Part.contents) :=
    List.flatMap_append ▸ split.flatMap_right _
  have among := fun x (listed : x ∈ (modules.map Part.module).flatMap Part.contents) =>
    all.mem_iff.mpr (List.mem_append_left (rest.flatMap Part.contents) listed)
  refine ⟨tidy.started, ?_, fun x listed => tidy.used x (among x listed), fun e listed => tidy.rising e (among _ listed)⟩
  have apart := (all.map Content.span).nodup_iff.mp tidy.apart
  rw [List.map_append] at apart
  exact apart.of_append_left

end Drafting

end SemanticAnalysis
