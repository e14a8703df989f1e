import Unification.Engine.Basic
import Unification.Solver

/-!
# Unification and calls

A unification that fails keeps the bindings it made, or takes all of them back if the settings ask
for that. Either way the trail is left as it was found.
-/

namespace Unification.Engine

/-- Unifies two types, at most `depth` levels down, and returns the representative of the pair. -/
def unify (depth : Nat) (e : Engine) (a b : TypeRef) : Outcome Engine TypeRef :=
  let mark := e.store.mark
  match unifier depth a b e.store with
  | .done r s     => .done r { e with store := s.commit mark }
  | .failed err s =>
    let s := if e.config.rollbackOnFailure then s.rewind mark else s
    .failed err { e with store := s.commit mark }
  | .cut          => .cut

/-- Unifies a fresh instance of the callee with the function type from the arguments to the result,
so that a generic callee can be called at different types. -/
def call (depth : Nat) (e : Engine) (callee : TypeRef) (args : List TypeRef) (result : TypeRef) :
    Outcome Engine TypeRef :=
  let shape := e.addFunction args result
  let inst := shape.2.renew .instantiate callee
  unify depth inst.2 inst.1 shape.1

end Unification.Engine
