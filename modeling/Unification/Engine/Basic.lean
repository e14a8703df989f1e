import Unification.Config
import Unification.Error
import Unification.Store

/-!
# The engine

The engine holds all that one inference works on: the store of types, the scopes that name them and
the settings. Operations that add something return it together with the new engine; an operation
that refuses its input returns an error and nothing else, so the engine stays as it was.
-/

namespace Unification

/-- The state of an inference. -/
structure Engine where
  store  : Store
  scopes : Scopes
  config : Config

namespace Engine

/-- An engine with no types of its own yet. -/
def new (config : Config) : Engine where
  store := { graph := Graph.initial }
  scopes := {}
  config := config

/-- The type graph of the engine. -/
def graph (e : Engine) : Graph :=
  e.store.graph

/-! ### Making types -/

/-- Adds a node to the graph. -/
def add (e : Engine) (n : Node) : TypeRef × Engine :=
  let result := e.store.add n
  (result.1, { e with store := result.2 })

/-- Makes a terminal, different from every other terminal. -/
def addTerminal (e : Engine) (name : String) : TypeRef × Engine :=
  e.add (.terminal name)

/-- Makes a free variable. -/
def addVar (e : Engine) (name : Option String) : TypeRef × Engine :=
  e.add (.var name none)

/-- Makes a constraint. -/
def addConstraint (e : Engine) (name : Option String) : TypeRef × Engine :=
  e.add (.constraint name)

/-- Makes an overload set, which keeps its members in order and as often as they are given. -/
def addUnion (e : Engine) (members : List TypeRef) : TypeRef × Engine :=
  e.add (.union members)

/-- Makes the curried function type from arguments to a result, from the last argument backwards.
Without arguments this is the result itself. -/
def addFunction (e : Engine) (args : List TypeRef) (result : TypeRef) : TypeRef × Engine :=
  args.foldr (fun input output => output.2.add (.inst functionTemplate [input, output.1]))
    (result, e)

/-- Adds a template to the graph. -/
def define (e : Engine) (t : Template) : TemplateRef × Engine :=
  let result := e.store.graph.define t
  (result.1, { e with store := { e.store with graph := result.2 } })

/-- Makes a template, which needs one bound for each parameter. -/
def declareTemplate (e : Engine) (t : Template) : Except TypeError (TemplateRef × Engine) :=
  if t.params.length = t.bounds.length then
    .ok (e.define t)
  else
    .error (.malformedTemplate t.name t.params.length t.bounds.length)

/-- Applies a template to as many arguments as it has parameters. A reference to no template takes
no arguments and is refused as well. -/
def applyTemplate (e : Engine) (template : TemplateRef) (args : List TypeRef) :
    Except TypeError (TypeRef × Engine) :=
  match e.graph.template? template with
  | some t =>
    if t.arity = args.length then
      .ok (e.add (.inst template args))
    else
      .error (.arityMismatch t.name t.arity args.length)
  | none => .error (.arityMismatch "" 0 args.length)

/-! ### Reading types -/

/-- The representative of a type. -/
def rep (e : Engine) (r : TypeRef) : TypeRef :=
  e.graph.rep r

/-- The type stands for a free variable. -/
def isFree (e : Engine) (r : TypeRef) : Bool :=
  e.graph.isFree (e.rep r)

/-- The variable `v` occurs in a type. -/
def occursIn (e : Engine) (v r : TypeRef) : Bool :=
  e.graph.occursIn v r

/-- How concrete a type is. -/
def specificity (e : Engine) (r : TypeRef) : Nat :=
  e.graph.specificity r

/-- The text of a type with labels of its own. -/
def render (e : Engine) (r : TypeRef) : String :=
  e.graph.render r

/-- The text of a type with labels shared between several texts. -/
def renderIn (e : Engine) (ls : Labels) (r : TypeRef) : String × Labels :=
  e.graph.renderIn ls r

/-! ### Renewing types -/

/-- Copies, generalizes or instantiates a type. -/
def renew (e : Engine) (how : Renewal) (r : TypeRef) : TypeRef × Engine :=
  let result := e.store.renew how r
  (result.1, { e with store := result.2 })

end Engine

end Unification
