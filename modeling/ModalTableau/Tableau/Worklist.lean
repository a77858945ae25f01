import ModalTableau.Tableau.Draft
import ModalTableau.Tableau.Growth

/-!
Growing a tableau inside a draft. The branches still to be worked on wait on a stack, each with the
number of the segment it belongs to; the one on top is worked on first. What a segment became is
written down when the work on it ends.
-/

namespace ModalTableau.Draft

/-- A branch to be worked on, with the inferences made since its segment began. -/
structure Task (β : Type) where
  branch : β
  node : Nat
  inferences : List Inference
  remaining : Nat

variable {β : Type}

/-- Strictly more than the two branches that one step of a task can leave behind. -/
def weight : (remaining : Nat) → Nat
  | 0 => 1
  | n + 1 => 2 * weight n + 1

def load : List (Task β) → Nat
  | [] => 0
  | task :: tasks => weight task.remaining + load tasks

theorem load_lt_cons (task : Task β) (tasks : List (Task β)) : load tasks < load (task :: tasks) := by
  have : 0 < weight task.remaining := by cases task.remaining <;> simp [weight]
  simp only [load]
  omega

def fork (d : Draft) (n : Nat) (left right : Signed) : Draft :=
  (d.insert (.ofSeed [left]) (some n)).insert (.ofSeed [right]) (some n)

def finish (d : Draft) (n : Nat) (inferences : List Inference) (status : Status)
    (kept : Option Branch) : Draft :=
  d.modify n fun s => ⟨s.seed, inferences, status, kept⟩

open Growable (clash? worldCount toBranch) in
def work [Growable β] (limits : Limits) (d : Draft) : List (Task β) → Except Fault Draft
  | [] => .ok d
  | ⟨b, n, inferences, remaining⟩ :: pending =>
    match clash? b with
    | some clash => work limits (d.finish n inferences (.closed clash) (some (toBranch b))) pending
    | none =>
      match remaining with
      | 0 => .error ⟨.iterations limits.maxIterations, limits.maxIterations, worldCount b⟩
      | rest + 1 =>
        match Growable.step limits.blocking b with
        | .saturated =>
          work limits (d.finish n inferences .saturated (some (toBranch b))) pending
        | .split rule premise left right after =>
          work limits ((d.fork n left right).finish n inferences (.split rule premise) none)
            (⟨Growable.add after left, d.size, [], rest⟩ ::
              ⟨Growable.add after right, d.size + 1, [], rest⟩ :: pending)
        | .extended applied after =>
          if limits.maxWorlds < worldCount after then
            .error ⟨.worlds limits.maxWorlds, limits.maxIterations - rest, worldCount after⟩
          else
            work limits d (⟨after, n, inferences ++ applied, rest⟩ :: pending)
termination_by tasks => load tasks
decreasing_by
  · exact load_lt_cons _ _
  · exact load_lt_cons _ _
  · simp only [load, weight]
    omega
  · simp only [load, weight]
    omega

def ofRoot (root : Signed) : Draft := empty.insert (.ofSeed [root]) none

def build (limits : Limits) (root : Signed) : Except Fault Draft :=
  work limits (.ofRoot root) [⟨Branch.ofRoot root, 0, [], limits.maxIterations⟩]

def ofLedger (limits : Limits) (root : Signed) : Except Fault Draft :=
  work limits (.ofRoot root) [⟨Ledger.ofRoot root, 0, [], limits.maxIterations⟩]

end ModalTableau.Draft
