import Unification.TypeError

/-!
# Outcomes of a search

Unification keeps its state when it fails, and may be asked to stop at a given depth. A run
therefore ends in one of three ways.
-/

namespace Unification

/-- How a run over a state `σ` ends. -/
inductive Outcome (σ α : Type) where
  /-- The run succeeds with a value. -/
  | done (value : α) (state : σ)
  /-- The run fails, and this is the state in which it failed. -/
  | failed (error : TypeError) (state : σ)
  /-- The run was cut short at the depth it was given. -/
  | cut
  deriving DecidableEq

namespace Outcome

variable {σ τ α β : Type}

/-- Goes on from a success. -/
def andThen (o : Outcome σ α) (f : α → σ → Outcome σ β) : Outcome σ β :=
  match o with
  | done a s   => f a s
  | failed e s => failed e s
  | cut        => cut

/-- Changes the value of a success. -/
def map (f : α → β) (o : Outcome σ α) : Outcome σ β :=
  match o with
  | done a s   => done (f a) s
  | failed e s => failed e s
  | cut        => cut

/-- The run came to an end of its own. -/
def finished : Outcome σ α → Bool
  | cut => false
  | _   => true

@[simp]
theorem done_andThen (a : α) (s : σ) (f : α → σ → Outcome σ β) : (done a s).andThen f = f a s :=
  rfl

@[simp]
theorem failed_andThen (e : TypeError) (s : σ) (f : α → σ → Outcome σ β) :
    (failed e s : Outcome σ α).andThen f = failed e s :=
  rfl

@[simp]
theorem cut_andThen (f : α → σ → Outcome σ β) : (cut : Outcome σ α).andThen f = cut :=
  rfl

end Outcome

end Unification
