import Unification.Engine.Basic

/-!
# Naming types and templates

Registration gives a name its first meaning in a scope: a name that the scope binds already keeps
its binding, and nothing is added to the graph. Setting a name replaces its binding.
-/

namespace Unification

/-- The parameters of a template that is registered by name. -/
inductive Params where
  /-- Parameter names, each bounded by a new anonymous constraint. -/
  | named (names : List String)
  /-- Parameter names with their bounds. -/
  | bounded (params : List (String × TypeRef))

namespace Engine

/-- Makes a scope without a parent. -/
def newScope (e : Engine) : ScopeRef × Engine :=
  let result := e.scopes.push none
  (result.1, { e with scopes := result.2 })

/-- Makes a scope inside another one. -/
def newChild (e : Engine) (parent : ScopeRef) : ScopeRef × Engine :=
  let result := e.scopes.push (some parent)
  (result.1, { e with scopes := result.2 })

/-- Binds a name in a scope. -/
def set (e : Engine) (scope : ScopeRef) (key : String) (entry : Entry) : Engine :=
  { e with scopes := e.scopes.set scope key entry }

/-! ### Registration -/

/-- The name that an entry brings along. -/
def nameOf (e : Engine) : Entry → Except ScopeError String
  | .template t => .ok (e.graph.templateName t)
  | .type ty    =>
    match (e.graph.node? ty).bind Node.name? with
    | some name => .ok name
    | none      => .error (.unnamed (e.render ty))

/-- Registers an entry under its own name, and returns what the name is bound to. -/
def register (e : Engine) (scope : ScopeRef) (entry : Entry) : Except ScopeError (Entry × Engine) :=
  match e.nameOf entry with
  | .error err => .error err
  | .ok name   =>
    match e.scopes.own? scope name with
    | some bound => .ok (bound, e)
    | none       => .ok (entry, e.set scope name entry)

/-- The terminal that a name is bound to in a scope, made if the name is not bound there. -/
def ensureTerminal (e : Engine) (scope : ScopeRef) (name : String) :
    Except ScopeError (TypeRef × Engine) :=
  match e.scopes.own? scope name with
  | some (.type ty)    => .ok (ty, e)
  | some (.template _) => .error (.kindMismatch name .type)
  | none               =>
    let made := e.addTerminal name
    .ok (made.1, made.2.set scope name (.type made.1))

/-- Makes `n` anonymous constraints. -/
def addConstraints (e : Engine) : Nat → List TypeRef × Engine
  | 0     => ([], e)
  | n + 1 =>
    let first := e.addConstraint none
    let rest := addConstraints first.2 n
    (first.1 :: rest.1, rest.2)

/-- The template with the given parameters, and the engine with the bounds that had to be made. -/
def withBounds (e : Engine) (name : String) : Params → Template × Engine
  | .named names    =>
    let bounds := e.addConstraints names.length
    (⟨name, names, bounds.1⟩, bounds.2)
  | .bounded params => (⟨name, params.map Prod.fst, params.map Prod.snd⟩, e)

/-- The template that a name is bound to in a scope, made if the name is not bound there. -/
def ensureTemplate (e : Engine) (scope : ScopeRef) (name : String) (params : Params) :
    Except ScopeError (TemplateRef × Engine) :=
  match e.scopes.own? scope name with
  | some (.template t) => .ok (t, e)
  | some (.type _)     => .error (.kindMismatch name .template)
  | none               =>
    let declared := e.withBounds name params
    let made := declared.2.define declared.1
    .ok (made.1, made.2.set scope name (.template made.1))

/-! ### Look-up -/

/-- The nearest binding of a name. -/
def find (e : Engine) (scope : ScopeRef) (key : String) : Except ScopeError Entry :=
  match e.scopes.lookup scope key with
  | some entry => .ok entry
  | none       => .error (.undefined key)

/-- The type that a name is bound to. -/
def findType (e : Engine) (scope : ScopeRef) (key : String) : Except ScopeError TypeRef :=
  match e.find scope key with
  | .ok (.type ty)    => .ok ty
  | .ok (.template _) => .error (.kindMismatch key .type)
  | .error err        => .error err

/-- The template that a name is bound to. -/
def findTemplate (e : Engine) (scope : ScopeRef) (key : String) : Except ScopeError TemplateRef :=
  match e.find scope key with
  | .ok (.template t) => .ok t
  | .ok (.type _)     => .error (.kindMismatch key .template)
  | .error err        => .error err

/-- Some scope on the way out binds the name. -/
def has (e : Engine) (scope : ScopeRef) (key : String) : Bool :=
  (e.scopes.lookup scope key).isSome

end Engine

end Unification
