import EdgeTemplate.Event

/-!
# Effects

An operation on a state gives a value, the next state and the events on the way, also when the
value says that it failed.
-/

namespace EdgeTemplate

/-- The result of an operation on a state, with what it did on the way. -/
structure Effect (σ α : Type) where
  value : α
  state : σ
  events : List Event

namespace Effect

variable {σ α β : Type}

def pure (value : α) (state : σ) : Effect σ α := ⟨value, state, []⟩

def map (f : α → β) (e : Effect σ α) : Effect σ β := ⟨f e.value, e.state, e.events⟩

/-- One operation after another. -/
def andThen (e : Effect σ α) (f : α → σ → Effect σ β) : Effect σ β :=
  let next := f e.value e.state
  ⟨next.value, next.state, e.events ++ next.events⟩

end Effect

end EdgeTemplate
