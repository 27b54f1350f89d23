import SemanticAnalysis.Proofs.Rewording.Compilation
/-!
Texts that differ in the claims of functions with a body. Names and calls mean the same in them, and the same functions
are clean: what a function with a body does is read off its body, whatever it claims. Each text is compared with the one
in which such functions claim nothing.
-/
namespace SemanticAnalysis
open Running Analysis Diagnostics SemanticAnalysis.Bound Program Rewording

def FunctionModifiers.unclaimed (m : FunctionModifiers) : FunctionModifiers :=
  { m with claimsPure := false, claimsReadonly := false }

theorem FunctionModifiers.unclaimed_operator (m : FunctionModifiers) : m.unclaimed.operator = m.operator := rfl

namespace Tree

def Item.unclaimed : Item → Item
  | .function decl =>
    .function { decl with
      modifiers := if decl.body.isSome then decl.modifiers.unclaimed else decl.modifiers }
  | item => item

def Module.unclaimed (m : Module) : Module := { m with items := m.items.map Item.unclaimed }

end Tree

namespace Rewording

def unclaimed : Rewording := ofModifiers FunctionModifiers.unclaimed FunctionModifiers.unclaimed_operator

end Rewording

structure Bound.Function.Resembles (f f' : Function) : Prop where
  id : f'.id = f.id
  name : f'.name = f.name
  nameSpan : f'.nameSpan = f.nameSpan
  parameters : f'.parameters = f.parameters
  body : f'.body = f.body
  bodyless : f.body = none → f'.modifiers = f.modifiers

structure Program.Resembles (p q : Program) : Prop where
  vars : q.vars = p.vars
  functions : ∀ {k : Nat} {f : Function}, p.functions[k]? = some f → ∃ f', q.functions[k]? = some f' ∧ f.Resembles f'

section Effects
variable {p q : Program} {links : Links} {access : Access} {f f' : Function}

variable (resembles : p.Resembles q) (back : q.Resembles p)
include resembles back

end Effects

namespace Compilation

structure Resembles (c c' : Compilation) : Prop where
  program : c.program.Resembles c'.program
  declarations : c'.program.declarations = c.program.declarations
  links : c'.facts.links = c.facts.links

end Compilation

end SemanticAnalysis
