import ProcLang.Event

/-! Results with the events on the way to them, and passes that decorate a tree. -/
namespace ProcLang

/-- A result with the events on the way to it, or to the fault in its place. -/
structure Traced (α : Type) where
  events : List Event
  result : Except Fault α

namespace Traced

/-- The second step runs only if the first gives a value. -/
def andThen (first : Traced α) (next : α → Traced β) : Traced β :=
  match first.result with
  | .error fault => ⟨first.events, .error fault⟩
  | .ok value =>
    let second := next value
    ⟨first.events ++ second.events, second.result⟩

instance : Monad Traced where
  pure value := ⟨[], .ok value⟩
  bind := andThen

/-- A step without events. -/
def ofExcept (result : Except Fault α) : Traced α :=
  ⟨[], result⟩

def emit (event : Event) : Traced Unit :=
  ⟨[event], .ok ()⟩

end Traced

/-- What a pass leaves behind: the tree with the decorations made up to the end or up to the first
fault, the events, and the result or that fault. -/
structure Pass (τ α : Type) where
  tree : τ
  events : List Event
  result : Except Fault α

namespace Pass

/-- A pass that changes nothing and ends at once. -/
def stop (tree : τ) (fault : Fault) : Pass τ α :=
  ⟨tree, [], .error fault⟩

/-- The pass over a second tree, made only if the first one ends well. -/
def andThen (first : Pass τ α) (rest : σ) (next : α → Pass σ β) : Pass (τ × σ) β :=
  match first.result with
  | .error fault => ⟨(first.tree, rest), first.events, .error fault⟩
  | .ok value =>
    let second := next value
    ⟨(first.tree, second.tree), first.events ++ second.events, second.result⟩

/-- A last check of the result. -/
def require (p : Pass τ α) (check : α → Except Fault β) : Pass τ β :=
  ⟨p.tree, p.events, p.result.bind check⟩

/-- A last event, if the pass ends well. -/
def logged (p : Pass τ α) (event : Event) : Pass τ α :=
  match p.result with
  | .error _ => p
  | .ok _ => { p with events := p.events ++ [event] }

def mapTree (f : τ → σ) (p : Pass τ α) : Pass σ α :=
  ⟨f p.tree, p.events, p.result⟩

/-- The tree together with the result, for a caller that has no use for the tree of a failure. -/
def traced (p : Pass τ α) : Traced (τ × α) :=
  ⟨p.events, p.result.map fun value => (p.tree, value)⟩

end Pass

end ProcLang
