import Unification.Node

/-!
# Scopes

Scopes form a forest. A name is looked up in a scope and then in its parents, the nearest binding
wins, and writing concerns one scope only.
-/

namespace Unification

/-- A scope, given by its place in the order of creation. -/
abbrev ScopeRef := Nat

/-- What a name is bound to. -/
inductive Entry where
  | type (ty : TypeRef)
  | template (template : TemplateRef)
  deriving DecidableEq

/-- What a scope can bind a name to. -/
inductive Entry.Kind where
  | type
  | template
  deriving DecidableEq

/-- The word for a kind of entry. -/
def Entry.Kind.word : Entry.Kind → String
  | type     => "type"
  | template => "template"

/-- Why a name could not be registered or looked up. -/
inductive ScopeError where
  /-- No enclosing scope binds the name. -/
  | undefined (name : String)
  /-- The type has no name to be registered under. -/
  | unnamed (ty : String)
  /-- The name is bound, but not to what was asked for. -/
  | kindMismatch (name : String) (expected : Entry.Kind)
  deriving DecidableEq

/-- The wording of the error. -/
def ScopeError.message : ScopeError → String
  | undefined name             => "Not defined: " ++ name
  | unnamed ty                 => "Could not find a name for " ++ ty
  | kindMismatch name expected => "'" ++ name ++ "' is not a " ++ expected.word

/-- One scope: its parent and its own bindings, newest first. -/
structure Frame where
  parent  : Option ScopeRef
  entries : List (String × Entry) := []

/-- All scopes made so far. -/
structure Scopes where
  frames : Array Frame := #[]

namespace Scopes

/-- Makes a scope, with or without a parent. -/
def push (ss : Scopes) (parent : Option ScopeRef) : ScopeRef × Scopes :=
  (ss.frames.size, { frames := ss.frames.push { parent } })

/-- The parent of a scope. -/
def parent? (ss : Scopes) (s : ScopeRef) : Option ScopeRef :=
  ss.frames[s]?.bind Frame.parent

/-- The binding of a name in the scope itself. -/
def own? (ss : Scopes) (s : ScopeRef) (key : String) : Option Entry :=
  ss.frames[s]?.bind fun frame => frame.entries.lookup key

/-- Looks a name up in a scope and at most `n - 1` scopes around it. -/
def search (ss : Scopes) (key : String) : Nat → ScopeRef → Option Entry
  | 0,     _ => none
  | n + 1, s =>
    match ss.own? s key with
    | some entry => some entry
    | none       => (ss.parent? s).bind (search ss key n)

/-- The nearest binding of a name. A parent is made before its children, so there are fewer scopes
around a scope than there are scopes. -/
def lookup (ss : Scopes) (s : ScopeRef) (key : String) : Option Entry :=
  ss.search key ss.frames.size s

/-- Binds a name in a scope, in place of its earlier binding there. -/
def set (ss : Scopes) (s : ScopeRef) (key : String) (entry : Entry) : Scopes where
  frames := ss.frames.modify s fun frame =>
    { frame with entries := (key, entry) :: frame.entries }

/-- Binding a name moves no scope. -/
@[simp]
theorem parent?_set (ss : Scopes) (s s' : ScopeRef) (key : String) (entry : Entry) :
    (ss.set s key entry).parent? s' = ss.parent? s' := by
  simp only [set, parent?, Array.getElem?_modify]
  split
  · cases ss.frames[s']? <;> rfl
  · rfl

/-- Binding a name in a scope is seen under that name in that scope, and nowhere else. -/
theorem own?_set (ss : Scopes) {s : ScopeRef} (s' : ScopeRef) (key key' : String) (entry : Entry)
    (h : s < ss.frames.size) :
    (ss.set s key entry).own? s' key' =
      if s = s' ∧ key' = key then some entry else ss.own? s' key' := by
  simp only [set, own?, Array.getElem?_modify]
  by_cases hs : s = s'
  · subst hs
    by_cases hk : key' = key
    · simp [hk, h]
    · simp [hk, h, List.lookup_cons, beq_false_of_ne hk]
  · simp [hs]

end Scopes

end Unification
