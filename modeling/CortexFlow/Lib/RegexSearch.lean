import CortexFlow.Lib.Regex

namespace CortexFlow.Lib

namespace Regex

theorem chr_len {p : Char → Bool} {prev : Option Char} {t : List Char} {m : Match}
    (h : m ∈ (chr p).exec prev t) : m.len = 1 := by
  cases t with
  | nil => cases h
  | cons c t =>
      simp only [exec] at h
      split_ifs at h
      · rw [List.mem_singleton.mp h]
      · cases h

-- A match that ends with the character `x`, and what comes before that.
theorem exec_closed {P : Char → Prop} {rs : List Regex} (hrs : ∀ r ∈ rs, r.Within P) {x : Char}
    {prev : Option Char} {t : List Char} {m : Match}
    (h : m ∈ (seqs (rs ++ [is x])).exec prev t) :
    ∃ k, m.len = k + 1 ∧ t[k]? = some x ∧ ∀ c ∈ t.take k, P c := by
  induction rs generalizing prev t m with
  | nil =>
      cases t with
      | nil => cases h
      | cons c t =>
          simp only [List.nil_append, seqs, is, exec] at h
          split_ifs at h with hc
          · rw [List.mem_singleton.mp h, of_decide_eq_true hc]
            exact ⟨0, rfl, rfl, by simp⟩
          · cases h
  | cons r rs ih =>
      have hseq : seqs (r :: rs ++ [is x]) = seq r (seqs (rs ++ [is x])) := by
        cases rs with
        | nil => rfl
        | cons => rfl
      rw [hseq] at h
      obtain ⟨a, ha, b, hb, rfl⟩ := mem_seq.mp h
      obtain ⟨k, hlen, hk, hall⟩ := ih (fun r hr => hrs r (List.mem_cons_of_mem _ hr)) hb
      rw [List.getElem?_drop] at hk
      refine ⟨a.len + k, ?_, hk, all_append (exec_all (hrs r List.mem_cons_self) ha) hall⟩
      rw [len_append, hlen]
      omega

section Replaced

variable {R : Char → Char → Prop} {r : Regex} {d b v : List Char}

-- What `search` finds: nothing, a match before the replaced part, or one behind it.
inductive Found (d b v u : List Char) :
    Option (Match × List Char) → Option (Match × List Char) → Prop
  | none : Found d b v u none none
  | before {m : Match} {y : List Char} (hy : y <:+ u) (hm : m.len ≤ y.length) :
      Found d b v u (some (m, y ++ (d ++ v))) (some (m, y ++ (b ++ v)))
  | behind {m : Match} {t : List Char} (ht : t <:+ v) : Found d b v u (some (m, t)) (some (m, t))

theorem Found.cons {u : List Char} {found found' : Option (Match × List Char)}
    (h : Found d b v u found found') (c : Char) : Found d b v (c :: u) found found' := by
  cases h with
  | none => exact .none
  | before hy hm => exact .before (hy.trans (List.suffix_cons c u)) hm
  | behind ht => exact .behind ht

end Replaced

end Regex

end CortexFlow.Lib
