import Mathlib.Data.List.Perm.Basic

/-!
# Served to the back

In every round some entries of a queue are served, and they go behind the others in
their order.  When the first entry is always among them, an entry waits for fewer rounds
than there are entries in the queue.
-/

namespace SlurmSim.Lib.ServedQueue

open List

variable {α : Type*}

/-- The entries that were not served, and then those that were. -/
def toBack (served : α → Bool) (queue : List α) : List α :=
  queue.filter (fun a => !served a) ++ queue.filter served

theorem toBack_perm (served : α → Bool) (queue : List α) : (toBack served queue).Perm queue :=
  perm_append_comm.trans (filter_append_perm served queue)

theorem toBack_map {β : Type*} {served : α → Bool} {other : β → Bool} {f : α → β}
    (queue : List α) (same : ∀ a ∈ queue, other (f a) = served a) :
    toBack other (queue.map f) = (toBack served queue).map f := by
  rw [toBack, toBack, map_append, filter_map, filter_map]
  congr 2
  · exact filter_congr fun a mem => by rw [Function.comp, same a mem]
  · exact filter_congr fun a mem => by rw [Function.comp, same a mem]

section Rounds

variable {queue : Nat → List α} {served : Nat → α → Bool}

theorem toBack_waits {round : α → Bool} {a : α} {before behind : List α}
    (waits : round a = false) : toBack round (before ++ a :: behind) =
      before.filter (fun b => !round b) ++
        a :: (behind.filter (fun b => !round b) ++ (before ++ a :: behind).filter round) := by
  rw [toBack, filter_append, filter_cons_of_pos (by rw [waits]; rfl), append_assoc, cons_append]

theorem served_before (next : ∀ k, queue (k + 1) = toBack (served k) (queue k))
    (first : ∀ k a rest, queue k = a :: rest → served k a = true) (a : α) (wait : Nat) :
    ∀ k before behind, before.length ≤ wait → queue k = before ++ a :: behind →
      ∃ m, k ≤ m ∧ m ≤ k + wait ∧ served m a = true := by
  induction wait with
  | zero =>
    intro k before behind none here
    obtain rfl : before = [] := length_eq_zero_iff.mp (Nat.le_zero.mp none)
    exact ⟨k, (Nat.le_refl _), (Nat.le_refl _), first k a behind here⟩
  | succ wait ih =>
    intro k before behind short here
    by_cases now : served k a = true
    · exact ⟨k, (Nat.le_refl _), Nat.le_add_right _ _, now⟩
    · have waits : served k a = false := Bool.eq_false_iff.mpr now
      cases before with
      | nil => exact absurd (first k a behind here) now
      | cons b before =>
        have head : served k b = true := first k b _ here
        have less : ((b :: before).filter fun b => !served k b).length ≤ wait := by
          rw [filter_cons_of_neg (by rw [head]; decide)]
          exact Nat.le_trans (length_filter_le _ _) (Nat.le_of_succ_le_succ short)
        obtain ⟨m, least, most, then_⟩ := ih (k + 1) _ _ less
          ((next k).trans ((congrArg _ here).trans (toBack_waits waits)))
        exact ⟨m, by omega, by omega, then_⟩

theorem served_within (next : ∀ k, queue (k + 1) = toBack (served k) (queue k))
    (first : ∀ k a rest, queue k = a :: rest → served k a = true) (k : Nat) {a : α}
    (mem : a ∈ queue k) : ∃ m, k ≤ m ∧ m < k + (queue k).length ∧ served m a = true := by
  obtain ⟨before, behind, here⟩ := append_of_mem mem
  obtain ⟨m, least, most, then_⟩ :=
    served_before next first a before.length k before behind (Nat.le_refl _) here
  refine ⟨m, least, ?_, then_⟩
  rw [here, length_append, length_cons]
  omega

end Rounds

end SlurmSim.Lib.ServedQueue
