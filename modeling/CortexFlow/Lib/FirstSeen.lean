import Mathlib

namespace CortexFlow.Lib

namespace FirstSeen

variable {α : Type*} [DecidableEq α]

-- What a loop keeps of a list that leaves out all that it has seen before.
def collect (seen : List α) : List α → List α
  | [] => []
  | a :: l => if a ∈ seen then collect seen l else a :: collect (a :: seen) l

-- All of the list, each once, in the order in which they come up in it.
structure Firsts (l out : List α) : Prop where
  nodup : out.Nodup
  mem : ∀ a, a ∈ out ↔ a ∈ l
  order : out.Pairwise fun a b => l.idxOf a < l.idxOf b

theorem mem_collect {seen l : List α} {a : α} : a ∈ collect seen l ↔ a ∈ l ∧ a ∉ seen := by
  induction l generalizing seen with
  | nil => simp [collect]
  | cons b l ih =>
      rw [collect]
      by_cases hseen : b ∈ seen
      · rw [if_pos hseen, ih, List.mem_cons]
        have hne : a ∉ seen → a ≠ b := fun hnot heq => hnot (heq ▸ hseen)
        exact ⟨fun h => ⟨Or.inr h.1, h.2⟩, fun h => ⟨h.1.resolve_left (hne h.2), h.2⟩⟩
      · rw [if_neg hseen, List.mem_cons, ih, List.mem_cons, List.mem_cons, not_or]
        by_cases heq : a = b
        · rw [heq]
          exact ⟨fun _ => ⟨Or.inl rfl, hseen⟩, fun _ => Or.inl rfl⟩
        · exact ⟨fun h => (h.resolve_left heq).imp Or.inr And.right,
            fun h => Or.inr ⟨h.1.resolve_left heq, heq, h.2⟩⟩

theorem idxOf_lt_cons {a b c : α} {l : List α} (ha : a ≠ c) (hb : b ≠ c)
    (h : l.idxOf a < l.idxOf b) : (c :: l).idxOf a < (c :: l).idxOf b := by
  rw [List.idxOf_cons_ne _ ha.symm, List.idxOf_cons_ne _ hb.symm]
  omega

theorem order_collect (seen l : List α) :
    (collect seen l).Pairwise fun a b => l.idxOf a < l.idxOf b := by
  induction l generalizing seen with
  | nil => exact .nil
  | cons c l ih =>
      rw [collect]
      by_cases hseen : c ∈ seen
      · rw [if_pos hseen]
        refine (ih seen).imp_of_mem fun ha hb hlt => ?_
        have hne {d : α} (hd : d ∈ collect seen l) : d ≠ c :=
          fun heq => (mem_collect.mp hd).2 (heq ▸ hseen)
        exact idxOf_lt_cons (hne ha) (hne hb) hlt
      · have hne {d : α} (hd : d ∈ collect (c :: seen) l) : d ≠ c :=
          fun heq => (mem_collect.mp hd).2 (heq ▸ List.mem_cons_self)
        rw [if_neg hseen]
        refine .cons (fun b hb => ?_) ((ih (c :: seen)).imp_of_mem fun ha hb hlt => ?_)
        · rw [List.idxOf_cons_self, List.idxOf_cons_ne _ (hne hb).symm]
          omega
        · exact idxOf_lt_cons (hne ha) (hne hb) hlt

theorem firsts_collect (l : List α) : Firsts l (collect [] l) := by
  have horder := order_collect [] l
  refine ⟨horder.imp fun hlt heq => ?_, fun a => ?_, horder⟩
  · rw [heq] at hlt
    exact Nat.lt_irrefl _ hlt
  · rw [mem_collect]
    exact ⟨And.left, fun h => ⟨h, List.not_mem_nil⟩⟩

-- Leaving some out does not change the order of the others.
theorem idxOf_filter {p : α → Bool} {l : List α} {a b : α} (ha : p a = true) (hb : p b = true)
    (h : (l.filter p).idxOf a < (l.filter p).idxOf b) : l.idxOf a < l.idxOf b := by
  induction l with
  | nil => exact h
  | cons c l ih =>
      by_cases hc : p c = true
      · rw [List.filter_cons_of_pos hc] at h
        by_cases hac : c = a
        · have hbc : c ≠ b := by
            rintro rfl
            rw [hac] at h
            exact Nat.lt_irrefl _ h
          rw [hac, List.idxOf_cons_self, ← hac, List.idxOf_cons_ne _ hbc]
          omega
        · by_cases hbc : c = b
          · rw [hbc, List.idxOf_cons_self] at h
            omega
          · rw [List.idxOf_cons_ne _ hac, List.idxOf_cons_ne _ hbc] at h
            exact idxOf_lt_cons (Ne.symm hac) (Ne.symm hbc) (ih (Nat.lt_of_succ_lt_succ h))
      · rw [List.filter_cons_of_neg hc] at h
        have hne {d : α} (hd : p d = true) : d ≠ c := fun heq => hc (heq ▸ hd)
        exact idxOf_lt_cons (hne ha) (hne hb) (ih h)

end FirstSeen

end CortexFlow.Lib
