import SemanticAnalysis.Proofs.Drafting.Desk
/-!
Numbering a draft is work at a desk. If the draft fixes no place of an expression or a statement, its parts are made one
after the other, and nothing is left over but the modules.
-/
namespace SemanticAnalysis

namespace Draft

mutual

def Expr.free : Expr → Bool
  | .name _ fixed => fixed.span.isNone
  | .number _ fixed => fixed.span.isNone
  | .null fixed => fixed.span.isNone
  | .call _ args fixed => fixed.span.isNone && Expr.allFree args
  | .method object _ args _ fixed => fixed.span.isNone && (object.free && Expr.allFree args)
  | .invoke target args fixed => fixed.span.isNone && (target.free && Expr.allFree args)
  | .member object _ _ fixed => fixed.span.isNone && object.free
  | .binary left _ right fixed => fixed.span.isNone && (left.free && right.free)
  | .unary _ operand fixed => fixed.span.isNone && operand.free
  | .paren inner fixed => fixed.span.isNone && inner.free

def Expr.allFree : List Expr → Bool
  | [] => true
  | e :: rest => e.free && Expr.allFree rest

end

mutual

def Stmt.free : Stmt → Bool
  | .expr value fixed => fixed.span.isNone && value.free
  | .variable decl => decl.fixed.span.isNone && decl.initializer.all Expr.free
  | .assign target value fixed => fixed.span.isNone && (target.free && value.free)
  | .ret value fixed => fixed.span.isNone && value.all Expr.free
  | .branch condition thenBranch elseBranch fixed =>
    fixed.span.isNone && (condition.free && (Stmt.allFree thenBranch && Stmt.optionFree elseBranch))
  | .block stmts fixed => fixed.span.isNone && Stmt.allFree stmts

def Stmt.allFree : List Stmt → Bool
  | [] => true
  | s :: rest => s.free && Stmt.allFree rest

def Stmt.optionFree : Option (List Stmt) → Bool
  | none => true
  | some stmts => Stmt.allFree stmts

end

def Item.free : Item → Bool
  | .function decl => Stmt.optionFree decl.body
  | .variable decl => decl.initializer.all Expr.free
  | .struct decl => decl.members.all (fun m => m.default.all Expr.free)

def Module.free (m : Module) : Bool := m.items.all Item.free

theorem Fixed.at_free {fixed : Fixed} (free : fixed.span.isNone = true) (own : Span) : [fixed.at own] = [own] := by
  rw [Fixed.at, Option.isNone_iff_eq_none.mp free]
  rfl

end Draft

namespace Drafting
open SemanticAnalysis.Draft SemanticAnalysis.Numbering Relation
variable {α β : Type} {x : Numbering α} {f : α → Numbering β} {used taken kept : List Part} {parts : α → List Part}
  {more : β → List Part}

/-- The work turns some parts at the desk into others. -/
def Makes (used : List Part) (x : Numbering α) (parts : α → List Part) : Prop :=
  ∀ line all rest, all.Perm (used ++ rest) → ∃ left, ReflTransGen Desk.Step ⟨line, all⟩ ⟨(x line).2, left⟩ ∧
    left.Perm (parts (x line).1 ++ rest)

theorem set_aside {all rest : List Part} (split : used.Perm (kept ++ taken)) (there : all.Perm (used ++ rest)) :
    all.Perm (taken ++ (kept ++ rest)) := by
  rw [← List.append_assoc]
  exact there.trans ((split.trans List.perm_append_comm).append_right rest)

theorem makes_use (split : used.Perm (kept ++ taken)) (first : Makes taken x parts)
    (second : ∀ a, Makes (kept ++ parts a) (f a) more) : Makes used (x >>= f) more := by
  intro line all rest there
  obtain ⟨left, run, held⟩ := first line all (kept ++ rest) (set_aside split there)
  rw [← List.append_assoc] at held
  obtain ⟨last, run', held'⟩ := second (x line).1 (x line).2 left rest
    (held.trans (List.perm_append_comm.append_right rest))
  exact ⟨last, run.trans run', held'⟩

theorem makes_then (first : Makes [] x parts) (second : ∀ a, Makes (used ++ parts a) (f a) more) :
    Makes used (x >>= f) more := makes_use (by rw [List.append_nil]) first second

theorem makes_from (first : Makes used x parts) (second : ∀ a, Makes (parts a) (f a) more) : Makes used (x >>= f) more :=
  makes_use (.refl ([] ++ used)) first second

theorem makes_pure {a : α} (same : used.Perm (parts a)) : Makes used (pure a) parts :=
  fun _ all rest there => ⟨all, .refl, there.trans (same.append_right rest)⟩

theorem makes_assembled (part : Part) (own : part.places = []) (split : used.Perm (kept ++ part.pieces))
    (next : Makes (kept ++ [part]) x parts) : Makes used x parts := by
  intro line all rest there
  have again : (part :: (kept ++ rest)).Perm (kept ++ [part] ++ rest) := by
    rw [List.append_assoc]
    exact List.perm_middle.symm
  obtain ⟨left, run, held⟩ := next line _ rest again
  exact ⟨left, .head (.assemble own (set_aside split there)) run, held⟩

theorem makes_whole {part : α → Part} (first : Makes used x (fun a => (part a).pieces)) (own : ∀ a, (part a).places = []) :
    Makes used x (fun a => [part a]) := by
  rw [← bind_pure x]
  exact makes_from first (fun a => makes_assembled (part a) (own a) (.refl ([] ++ _)) (makes_pure (.refl _)))

theorem makes_as {g : α → β} (first : Makes used x (fun a => more (g a))) : Makes used (g <$> x) more := first

theorem fresh_makes {part : Span → Part} (own : ∀ span, (part span).places = [span])
    (pieces : ∀ span, (part span).pieces.Perm used) : Makes used fresh (fun span => [part span]) :=
  fun _ _ rest there => ⟨_ :: rest, .single (.place (own _) (there.trans ((pieces _).symm.append_right rest))), .refl _⟩

theorem makes_placed {build : Span → α} {part : α → Part} (own : ∀ span, (part (build span)).places = [span])
    (pieces : ∀ span, (part (build span)).pieces.Perm used) :
    Makes used (do pure (build (← fresh))) (fun a => [part a]) :=
  makes_from (fresh_makes own pieces) (fun _ => makes_pure (.refl _))

theorem makes_all {γ : Type} {g : γ → Numbering α} {part : α → Part} :
    ∀ xs : List γ, (∀ x ∈ xs, Makes [] (g x) (fun a => [part a])) → Makes [] (xs.mapM g) (fun as => as.map part)
  | [], _ => by
    rw [List.mapM_nil]
    exact makes_pure (.refl _)
  | x :: xs, each => by
    rw [List.mapM_cons]
    refine makes_then (each x List.mem_cons_self) fun a => ?_
    exact makes_then (makes_all xs (fun y among => each y (List.mem_cons_of_mem x among))) fun as => makes_pure (.refl _)

def Rises (x : Numbering α) : Prop := ∀ line, line ≤ (x line).2

theorem rises_bind (first : Rises x) (second : ∀ a, Rises (f a)) : Rises (x >>= f) :=
  fun line => Nat.le_trans (first line) (second _ _)

theorem rises_pure (a : α) : Rises (pure a) := fun line => Nat.le_refl line

theorem rises_fresh : Rises fresh := fun line => Nat.le_succ line

theorem rises_all {γ : Type} {g : γ → Numbering α} (each : ∀ x, Rises (g x)) (xs : List γ) : Rises (xs.mapM g) := by
  induction xs with
  | nil => exact rises_pure []
  | cons x xs ih =>
    rw [List.mapM_cons]
    exact rises_bind (each x) fun _ => rises_bind ih fun _ => rises_pure _

theorem lines_skipped (parts : List Part) (line count : Nat) :
    ReflTransGen Desk.Step ⟨line, parts⟩ ⟨line + count, parts⟩ := by
  induction count with
  | zero => exact .refl
  | succ count ih => exact ih.tail .skip

theorem makes_idle (rises : Rises x) (second : ∀ a, Makes used (f a) more) : Makes used (x >>= f) more := by
  intro line all rest there
  obtain ⟨left, run, held⟩ := second (x line).1 (x line).2 all rest there
  have skipped := lines_skipped all line ((x line).2 - line)
  rw [Nat.add_sub_cancel' (rises line)] at skipped
  exact ⟨left, skipped.trans run, held⟩

theorem ident_rises (label : String) : Rises (ident label) := rises_fresh

theorem type_rises (t : TypeExpr) : Rises t.numbered := rises_fresh

theorem number_type_rises (t : Option TypeExpr) : Rises (numberType t) := by
  cases t with
  | none => exact rises_pure none
  | some t => exact type_rises t

theorem param_rises (param : Param) : Rises param.numbered := by
  cases param with
  | named label type =>
    exact rises_bind (ident_rises label) fun _ => rises_bind (type_rises _) fun _ => rises_fresh
  | general label type =>
    exact rises_bind (number_type_rises type) fun _ => rises_bind (ident_rises label) fun _ => rises_fresh

theorem notice_rises (notice : Severity × String) : Rises (numberNotice notice) := rises_fresh

theorem import_rises (target : String) : Rises (numberImport target) :=
  rises_bind (rises_all ident_rises _) fun _ => rises_fresh

theorem ident_makes (label : String) : Makes [] (ident label) (fun ident => [.expr (.name ident ident.span)]) :=
  makes_placed (fun _ => rfl) (fun _ => .refl _)

mutual

theorem expr_made : ∀ e : Expr, e.free = true → Makes [] e.numbered (fun e => [.expr e])
  | .name label fixed, free => by
    change Makes [] (fresh >>= fun span => pure (Tree.Expr.name (fixed.name ⟨label, span⟩) (fixed.at span))) _
    exact makes_placed (Fixed.at_free free) (fun _ => .refl _)
  | .number _ fixed, free => makes_placed (Fixed.at_free free) (fun _ => .refl _)
  | .null fixed, free => makes_placed (Fixed.at_free free) (fun _ => .refl _)
  | .call label args fixed, free => by
    rw [Expr.free, Bool.and_eq_true] at free
    refine makes_then (exprs_made args free.2) fun args => makes_then (ident_makes label) fun ident => ?_
    exact makes_placed (Fixed.at_free free.1) (fun _ => (List.perm_append_singleton _ _).symm)
  | .method object label args nullSafe fixed, free => by
    simp only [Expr.free, Bool.and_eq_true] at free
    refine makes_then (expr_made object free.2.1) fun object => makes_then (exprs_made args free.2.2) fun args => ?_
    refine makes_idle (ident_rises label) fun ident => ?_
    have target : Makes [.expr object] fresh (fun span => [.expr (.member object ident nullSafe span)]) :=
      fresh_makes (fun _ => rfl) (fun _ => .refl _)
    refine makes_use (List.perm_append_singleton (Part.expr object) (args.map Part.expr)).symm target fun span => ?_
    exact makes_placed (Fixed.at_free free.1) (fun _ => (List.perm_append_singleton _ _).symm)
  | .invoke target args fixed, free => by
    simp only [Expr.free, Bool.and_eq_true] at free
    refine makes_then (expr_made target free.2.1) fun target => makes_then (exprs_made args free.2.2) fun args => ?_
    exact makes_placed (Fixed.at_free free.1) (fun _ => .refl _)
  | .member object label nullSafe fixed, free => by
    rw [Expr.free, Bool.and_eq_true] at free
    refine makes_then (expr_made object free.2) fun object => makes_idle (ident_rises label) fun ident => ?_
    exact makes_placed (Fixed.at_free free.1) (fun _ => .refl _)
  | .binary left op right fixed, free => by
    simp only [Expr.free, Bool.and_eq_true] at free
    refine makes_then (expr_made left free.2.1) fun left => makes_then (expr_made right free.2.2) fun right => ?_
    exact makes_placed (Fixed.at_free free.1) (fun _ => .refl _)
  | .unary op operand fixed, free => by
    rw [Expr.free, Bool.and_eq_true] at free
    refine makes_then (expr_made operand free.2) fun operand => ?_
    exact makes_placed (Fixed.at_free free.1) (fun _ => .refl _)
  | .paren inner fixed, free => by
    rw [Expr.free, Bool.and_eq_true] at free
    refine makes_then (expr_made inner free.2) fun inner => ?_
    exact makes_placed (Fixed.at_free free.1) (fun _ => .refl _)

theorem exprs_made : ∀ es : List Expr, Expr.allFree es = true →
    Makes [] (Expr.allNumbered es) (fun es => es.map .expr)
  | [], _ => makes_pure (.refl _)
  | e :: rest, free => by
    rw [Expr.allFree, Bool.and_eq_true] at free
    exact makes_then (expr_made e free.1) fun _ => makes_then (exprs_made rest free.2) fun _ => makes_pure (.refl _)

end

theorem option_made (e : Option Expr) (free : e.all Expr.free = true) :
    Makes [] (numberExpr e) (fun e => e.toList.map .expr) := by
  cases e with
  | none => exact makes_pure (.refl _)
  | some e => exact makes_as (expr_made e free)

theorem local_made {decl : VariableDecl} (placed : decl.fixed.span.isNone = true)
    (free : decl.initializer.all Expr.free = true) : Makes [] decl.numbered (fun decl => [.stmt (.variable decl)]) := by
  refine makes_idle (number_type_rises decl.type) fun type => makes_then (option_made _ free) fun initializer => ?_
  exact makes_idle (ident_rises decl.name) fun ident => makes_placed (Fixed.at_free placed) (fun _ => .refl _)

theorem branches_made (thenStmts : List Tree.Stmt) (elseStmts : Option (List Tree.Stmt)) :
    Makes (thenStmts.map .stmt ++ elseStmts.toList.flatMap (·.map .stmt)) (numberBranches thenStmts elseStmts)
      (fun bs => .block bs.1 :: bs.2.toList.map .block) := by
  cases elseStmts with
  | none =>
    rw [Option.toList_none, List.flatMap_nil, List.append_nil]
    refine makes_idle rises_fresh fun span => ?_
    exact makes_assembled (.block (.mk thenStmts span)) rfl (.refl ([] ++ _)) (makes_pure (.refl _))
  | some stmts =>
    rw [Option.toList_some, List.flatMap_singleton]
    refine makes_idle rises_fresh fun span => makes_idle rises_fresh fun span' => ?_
    refine makes_assembled (.block (.mk thenStmts span)) rfl List.perm_append_comm ?_
    exact makes_assembled (.block (.mk stmts span')) rfl List.perm_append_comm (makes_pure (.refl _))

mutual

theorem stmt_made : ∀ s : Stmt, s.free = true → Makes [] s.numbered (fun s => [.stmt s])
  | .expr value fixed, free => by
    rw [Stmt.free, Bool.and_eq_true] at free
    exact makes_then (expr_made value free.2) fun _ => makes_placed (Fixed.at_free free.1) (fun _ => .refl _)
  | .variable decl, free => by
    rw [Stmt.free, Bool.and_eq_true] at free
    exact makes_as (local_made free.1 free.2)
  | .assign target value fixed, free => by
    simp only [Stmt.free, Bool.and_eq_true] at free
    refine makes_then (expr_made target free.2.1) fun _ => makes_then (expr_made value free.2.2) fun _ => ?_
    exact makes_placed (Fixed.at_free free.1) (fun _ => .refl _)
  | .ret value fixed, free => by
    rw [Stmt.free, Bool.and_eq_true] at free
    exact makes_then (option_made value free.2) fun _ => makes_placed (Fixed.at_free free.1) (fun _ => .refl _)
  | .branch condition thenBranch elseBranch fixed, free => by
    simp only [Stmt.free, Bool.and_eq_true] at free
    refine makes_then (expr_made condition free.2.1) fun condition => ?_
    refine makes_then (stmts_made thenBranch free.2.2.1) fun thenStmts => ?_
    refine makes_then (option_stmts_made elseBranch free.2.2.2) fun elseStmts => ?_
    refine makes_use (.of_eq (List.append_assoc [Part.expr condition] _ _)) (branches_made thenStmts elseStmts) ?_
    rintro ⟨thenBranch, elseBranch⟩
    exact makes_placed (Fixed.at_free free.1) (fun _ => .refl _)
  | .block stmts fixed, free => by
    rw [Stmt.free, Bool.and_eq_true] at free
    exact makes_then (stmts_made stmts free.2) fun _ => makes_placed (Fixed.at_free free.1) (fun _ => .refl _)

theorem stmts_made : ∀ stmts : List Stmt, Stmt.allFree stmts = true →
    Makes [] (Stmt.allNumbered stmts) (fun stmts => stmts.map .stmt)
  | [], _ => makes_pure (.refl _)
  | s :: rest, free => by
    rw [Stmt.allFree, Bool.and_eq_true] at free
    exact makes_then (stmt_made s free.1) fun _ => makes_then (stmts_made rest free.2) fun _ => makes_pure (.refl _)

theorem option_stmts_made : ∀ stmts : Option (List Stmt), Stmt.optionFree stmts = true →
    Makes [] (Stmt.optionNumbered stmts) (fun stmts => stmts.toList.flatMap (·.map .stmt))
  | none, _ => makes_pure (.refl _)
  | some stmts, free => by
    apply makes_as
    simpa using stmts_made stmts free

end

theorem body_made (stmts : Option (List Stmt)) (free : Stmt.optionFree stmts = true) :
    Makes [] (numberBody stmts) (fun body => body.toList.map .block) := by
  cases stmts with
  | none => exact makes_pure (.refl _)
  | some stmts =>
    refine makes_from (stmts_made stmts free) fun stmts => makes_idle rises_fresh fun span => ?_
    exact makes_assembled (.block (.mk stmts span)) rfl (.refl ([] ++ _)) (makes_pure (.refl _))

theorem function_made {decl : FunctionDecl} (free : Stmt.optionFree decl.body = true) :
    Makes [] decl.numbered (fun decl => decl.body.toList.map .block) := by
  refine makes_idle (ident_rises decl.name) fun ident => makes_idle rises_fresh fun own => ?_
  refine makes_idle (number_type_rises decl.receiver) fun receiver => ?_
  refine makes_idle (rises_all param_rises decl.params) fun params => ?_
  refine makes_idle (number_type_rises decl.returnType) fun returnType => ?_
  exact makes_from (body_made decl.body free) fun body => makes_pure (.refl _)

theorem global_made {decl : VariableDecl} (free : decl.initializer.all Expr.free = true) :
    Makes [] decl.numbered (fun decl => decl.initializer.toList.map .expr) := by
  refine makes_idle (number_type_rises decl.type) fun type => makes_from (option_made _ free) fun initializer => ?_
  exact makes_idle (ident_rises decl.name) fun ident => makes_idle rises_fresh fun _ => makes_pure (.refl _)

theorem member_made {decl : MemberDecl} (free : decl.default.all Expr.free = true) :
    Makes [] decl.numbered (fun decl => [.member decl]) := by
  refine makes_whole ?_ (fun _ => rfl)
  refine makes_idle (type_rises decl.type) fun type => makes_from (option_made _ free) fun default => ?_
  exact makes_idle (ident_rises decl.name) fun ident => makes_idle rises_fresh fun _ => makes_pure (.refl _)

theorem item_made (item : Item) (free : item.free = true) : Makes [] item.numbered (fun item => [.item item]) := by
  refine makes_whole ?_ (fun _ => rfl)
  cases item with
  | function decl => exact makes_as (function_made free)
  | «variable» decl => exact makes_as (global_made free)
  | struct decl =>
    have members := makes_all decl.members (fun m among => member_made (List.all_eq_true.mp free m among))
    refine makes_as (makes_from members fun members => ?_)
    refine makes_idle (rises_all type_rises decl.supertypes) fun supertypes => ?_
    exact makes_idle (ident_rises decl.name) fun ident => makes_idle rises_fresh fun _ => makes_pure (.refl _)

theorem module_made (m : Module) (free : m.free = true) : Makes [] m.numbered (fun m => [.module m]) := by
  refine makes_whole ?_ (fun _ => rfl)
  refine makes_idle (rises_all import_rises m.imports) fun imports => ?_
  refine makes_from (makes_all m.items (fun item among => item_made item (List.all_eq_true.mp free item among))) ?_
  refine fun items => makes_idle (rises_all notice_rises m.notices) fun notices => ?_
  exact makes_idle (rises_all ident_rises _) fun path => makes_idle rises_fresh fun _ => makes_pure (.refl _)

theorem drafts_made {drafts : List Module} (free : drafts.all Module.free = true) :
    Made (number drafts).2 (number drafts).1 := by
  obtain ⟨left, run, split⟩ :=
    makes_all drafts (fun m among => module_made m (List.all_eq_true.mp free m among)) 1 [] [] (.refl _)
  exact ⟨left, [], run, split⟩

end Drafting

end SemanticAnalysis
