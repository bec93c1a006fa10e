import Mathlib

namespace CortexFlow.Lib

-- What one thread does with mutexes that are not recursive.
inductive LockAction (μ : Type*)
  | lock (mutex : μ)
  | unlock (mutex : μ)
deriving DecidableEq

namespace LockAction

variable {μ : Type*} [DecidableEq μ]

-- The mutexes held in the end, the last one locked first. `none`: the thread has
-- locked a mutex that it holds already, and never gets any further.
def exec : List μ → List (LockAction μ) → Option (List μ)
  | held, [] => some held
  | held, .lock mutex :: rest =>
      if mutex ∈ held then none else exec (mutex :: held) rest
  | held, .unlock mutex :: rest => exec (held.erase mutex) rest

-- A critical section.
def critical (mutex : μ) (body : List (LockAction μ)) : List (LockAction μ) :=
  .lock mutex :: (body ++ [.unlock mutex])

-- Critical sections with nothing in them, one after another.
def brief (mutexes : List μ) : List (LockAction μ) :=
  mutexes.flatMap fun mutex => critical mutex []

theorem exec_append (held : List μ) (first rest : List (LockAction μ)) :
    exec held (first ++ rest) = (exec held first).bind fun later => exec later rest := by
  induction first generalizing held with
  | nil => rfl
  | cons action first ih =>
      cases action with
      | lock mutex =>
          simp only [List.cons_append, exec]
          by_cases hm : mutex ∈ held
          · rw [if_pos hm, if_pos hm]
            rfl
          · rw [if_neg hm, if_neg hm]
            exact ih (mutex :: held)
      | unlock mutex => exact ih (held.erase mutex)

-- A critical section goes through if its mutex is free and what is done in it
-- goes through and leaves the mutexes as they were.
theorem exec_critical (held : List μ) (mutex : μ) (body : List (LockAction μ)) {p : Prop}
    [Decidable p]
    (hbody : exec (mutex :: held) body = if p then some (mutex :: held) else none) :
    exec held (critical mutex body) = if mutex ∉ held ∧ p then some held else none := by
  simp only [critical, exec]
  by_cases hm : mutex ∈ held
  · rw [if_pos hm, if_neg fun h => h.1 hm]
  · rw [if_neg hm, exec_append, hbody]
    by_cases hp : p
    · rw [if_pos hp, if_pos ⟨hm, hp⟩]
      simp [exec]
    · rw [if_neg hp, if_neg fun h => hp h.2]
      rfl

theorem exec_brief (held mutexes : List μ) :
    exec held (brief mutexes) =
      if ∀ mutex ∈ mutexes, mutex ∉ held then some held else none := by
  induction mutexes with
  | nil => simp [brief, exec]
  | cons mutex rest ih =>
      have hempty : exec (mutex :: held) ([] : List (LockAction μ)) =
          if True then some (mutex :: held) else none := rfl
      have hcons : brief (mutex :: rest) = critical mutex [] ++ brief rest := rfl
      rw [hcons, exec_append, exec_critical held mutex [] hempty]
      by_cases hm : mutex ∈ held
      · rw [if_neg fun h => h.1 hm, if_neg fun h => h mutex List.mem_cons_self hm]
        rfl
      · rw [if_pos ⟨hm, trivial⟩, Option.bind_some, ih]
        simp [hm]

end LockAction

end CortexFlow.Lib
