import ModalTableau.Limits

/-!
How the checks of a program are carried out: one after the other, or at the same time by a pool of
workers. A pool hands back the answers in the order of the questions.
-/

namespace ModalTableau

structure Pool where
  join : {α β : Type} → (Unit → α) → (Unit → β) → α × β
  map : {α β : Type} → (α → β) → List α → List β
  join_eq : ∀ {α β : Type} (f : Unit → α) (g : Unit → β), join f g = (f (), g ())
  map_eq : ∀ {α β : Type} (f : α → β) (l : List α), map f l = l.map f

/-- A task for every piece of work but one of a pair. -/
def Pool.tasks : Pool where
  join f g :=
    let first := Task.spawn f
    let second := g ()
    (first.get, second)
  map f l := (l.map fun a => Task.spawn fun _ => f a).map Task.get
  join_eq _ _ := rfl
  map_eq _ _ := List.map_map

structure Service where
  limits : Limits
  parallel : Bool
  pool : Pool

namespace Service

variable {α β : Type}

def both (s : Service) (f : Unit → α) (g : Unit → β) : α × β :=
  if s.parallel then s.pool.join f g else (f (), g ())

def each (s : Service) (f : α → β) (l : List α) : List β :=
  if s.parallel then s.pool.map f l else l.map f

@[simp] theorem both_eq (s : Service) (f : Unit → α) (g : Unit → β) : s.both f g = (f (), g ()) := by
  rw [both, s.pool.join_eq, ite_self]

@[simp] theorem each_eq (s : Service) (f : α → β) (l : List α) : s.each f l = l.map f := by
  rw [each, s.pool.map_eq, ite_self]

end Service
end ModalTableau
