import Mathlib.Logic.Function.Basic

/-!
# Named counting semaphores

A semaphore is found by its name. Its value is the number of the tokens in it;
the tokens carry what a proof wants to know about the post they come from, and
are taken in the order of the posts.
-/

namespace SlurmSim.Lib

/-- The tokens of every semaphore. -/
abbrev Semaphores (Name Token : Type) := Name → List Token

namespace Semaphores

variable {Name Token : Type} [DecidableEq Name]

/-- `sem_post`. -/
def post (sems : Semaphores Name Token) (name : Name) (token : Token) : Semaphores Name Token :=
  Function.update sems name (sems name ++ [token])

/-- `sem_wait`, which cannot be passed while the semaphore is zero. -/
def wait (sems : Semaphores Name Token) (name : Name) :
    Option (Token × Semaphores Name Token) :=
  match sems name with
  | [] => none
  | token :: rest => some (token, Function.update sems name rest)

variable {sems after : Semaphores Name Token} {name other : Name} {token : Token}

@[simp] theorem post_self : sems.post name token name = sems name ++ [token] :=
  Function.update_self _ _ _

theorem post_of_ne (ne : other ≠ name) : sems.post name token other = sems other :=
  Function.update_of_ne ne _ _

theorem wait_eq_some (passed : sems.wait name = some (token, after)) :
    sems name = token :: after name ∧ ∀ other, other ≠ name → after other = sems other := by
  unfold wait at passed
  split at passed
  · exact absurd passed (by simp)
  · rename_i first rest shape
    obtain ⟨rfl, rfl⟩ := Prod.mk.inj (Option.some.inj passed)
    refine ⟨?_, ?_⟩
    · rw [shape, Function.update_self]
    · intro other ne
      exact Function.update_of_ne ne _ _

end Semaphores

end SlurmSim.Lib
