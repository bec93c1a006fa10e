import Mathlib

namespace CortexFlow.Lib

-- Storage in which objects are constructed and destructed by hand, one after
-- another.
inductive Lifetime (α : Type*)
  | construct (x : α)
  | destruct (x : α)
deriving DecidableEq

-- An object is constructed only where none is, and only the object that is
-- there is destructed. `live` is what the storage holds in the end.
inductive Disciplined {α : Type*} : List (Lifetime α) → Option α → Prop
  | nil : Disciplined [] none
  | construct {ops : List (Lifetime α)} (x : α) :
      Disciplined ops none → Disciplined (ops ++ [.construct x]) (some x)
  | destruct {ops : List (Lifetime α)} (x : α) :
      Disciplined ops (some x) → Disciplined (ops ++ [.destruct x]) none

namespace Disciplined

variable {α : Type*} {ops : List (Lifetime α)} {live : Option α}

-- The operations that made a list of objects one after another, each destructed
-- before the next was constructed.
def cycles (xs : List α) : List (Lifetime α) :=
  xs.flatMap fun x => [.construct x, .destruct x]

theorem cycles_concat (xs : List α) (x : α) :
    cycles (xs ++ [x]) = cycles xs ++ [.construct x, .destruct x] := by
  simp [cycles]

theorem alternates (h : Disciplined ops live) :
    ∃ xs, ops = cycles xs ++ live.toList.map Lifetime.construct := by
  induction h with
  | nil => exact ⟨[], rfl⟩
  | construct x _ ih =>
      obtain ⟨xs, rfl⟩ := ih
      exact ⟨xs, by simp⟩
  | destruct x _ ih =>
      obtain ⟨xs, rfl⟩ := ih
      exact ⟨xs ++ [x], by simp [cycles_concat]⟩

theorem count_cycles [DecidableEq α] (xs : List α) (x : α) :
    (cycles xs).count (.construct x) = (cycles xs).count (.destruct x) := by
  induction xs with
  | nil => rfl
  | cons y xs ih =>
      simp only [cycles, List.flatMap_cons, List.count_append] at ih ⊢
      rw [ih]
      congr 1
      by_cases hy : y = x <;> simp [hy]

-- Once the storage is empty, every object has been destructed as often as it
-- was constructed.
theorem count_eq [DecidableEq α] (h : Disciplined ops none) (x : α) :
    ops.count (.construct x) = ops.count (.destruct x) := by
  obtain ⟨xs, rfl⟩ := h.alternates
  simpa using count_cycles xs x

-- The storage is used properly up to every point in between as well.
theorem of_append {front back : List (Lifetime α)} (h : Disciplined (front ++ back) live) :
    ∃ held, Disciplined front held := by
  induction back using List.reverseRecOn generalizing live with
  | nil => exact ⟨live, by rwa [List.append_nil] at h⟩
  | append_singleton back last ih =>
      rw [← List.append_assoc] at h
      generalize hops : front ++ back ++ [last] = ops at h
      cases h with
      | nil => exact absurd hops (by simp)
      | construct x hx => exact ih (List.append_inj_left' hops rfl ▸ hx)
      | destruct x hx => exact ih (List.append_inj_left' hops rfl ▸ hx)

end Disciplined

end CortexFlow.Lib
