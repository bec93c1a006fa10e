import Mathlib

namespace CortexFlow.Lib

namespace Brackets

variable {α : Type*} [DecidableEq α]

-- Whether all brackets are closed at the end, with `depth` of them open at the start, and
-- none is closed that is not open.
def closed (opening closing : α) : Nat → List α → Bool
  | depth, [] => depth = 0
  | depth, c :: t =>
      if c = opening then closed opening closing (depth + 1) t
      else if c = closing then 0 < depth && closed opening closing (depth - 1) t
      else closed opening closing depth t

def balanced (opening closing : α) (t : List α) : Bool := closed opening closing 0 t

variable {opening closing : α} {u v : List α}

theorem closed_append {d e : Nat} (hu : closed opening closing e u = true)
    (hv : closed opening closing d v = true) : closed opening closing (e + d) (u ++ v) = true := by
  induction u generalizing e with
  | nil =>
      have he : e = 0 := by simpa [closed] using hu
      rw [he, Nat.zero_add]
      exact hv
  | cons c u ih =>
      simp only [List.cons_append, closed] at hu ⊢
      split_ifs at hu ⊢ with hopening hclosing
      · have hrest := ih hu
        rwa [Nat.add_right_comm] at hrest
      · rw [Bool.and_eq_true, decide_eq_true_eq] at hu ⊢
        have hrest := ih hu.2
        refine ⟨by omega, ?_⟩
        have hdepth : e - 1 + d = e + d - 1 := by omega
        rwa [hdepth] at hrest
      · exact ih hu

theorem balanced_append (hu : balanced opening closing u = true)
    (hv : balanced opening closing v = true) : balanced opening closing (u ++ v) = true :=
  closed_append hu hv

theorem balanced_cons {c : α} (hopening : c ≠ opening) (hclosing : c ≠ closing)
    (hu : balanced opening closing u = true) : balanced opening closing (c :: u) = true := by
  rw [balanced, closed, if_neg hopening, if_neg hclosing]
  exact hu

theorem balanced_free (hu : ∀ c ∈ u, c ≠ opening ∧ c ≠ closing) :
    balanced opening closing u = true := by
  induction u with
  | nil => rfl
  | cons c u ih =>
      obtain ⟨hopening, hclosing⟩ := hu c List.mem_cons_self
      exact balanced_cons hopening hclosing (ih fun c hc => hu c (List.mem_cons_of_mem _ hc))

theorem balanced_wrap (hne : closing ≠ opening) (hu : balanced opening closing u = true)
    (hv : balanced opening closing v = true) :
    balanced opening closing (opening :: (u ++ closing :: v)) = true := by
  have hclosing : closed opening closing 1 (closing :: v) = true := by
    rw [closed, if_neg hne, if_pos rfl]
    exact hv
  rw [balanced, closed, if_pos rfl]
  have hrest := closed_append hu hclosing
  rwa [Nat.zero_add] at hrest ⊢

end Brackets

end CortexFlow.Lib
