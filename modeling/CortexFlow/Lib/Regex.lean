import Mathlib

namespace CortexFlow.Lib

instance lawfulBEq_text : LawfulBEq (List Char) := inferInstance

-- Regular expressions as a backtracking engine runs them: `star` takes as many
-- repetitions as it can, `lazy` as few.
inductive Regex
  | empty
  | chr (p : Char → Bool)
  | seq (first rest : Regex)
  | alt (first other : Regex)
  | star (r : Regex)
  | lazy (r : Regex)
  | group (r : Regex)
  | boundary (word : Char → Bool)
  | final

namespace Regex

-- How many characters were matched, and what the groups captured.
structure Match where
  len : Nat
  groups : List (List Char)
deriving DecidableEq

def Match.append (m next : Match) : Match := ⟨m.len + next.len, m.groups ++ next.groups⟩

-- The character before position `k` of a text that comes after `prev`.
def lookback (prev : Option Char) (t : List Char) (k : Nat) : Option Char :=
  if k = 0 then prev else t[k - 1]?

def isWord (word : Char → Bool) (c : Option Char) : Bool := c.any word

-- Repetitions that match nothing are not tried.
def iterate (greedy : Bool) (exec : Option Char → List Char → List Match) :
    Nat → Option Char → List Char → List Match
  | 0, _, _ => [⟨0, []⟩]
  | fuel + 1, prev, t =>
      let more := ((exec prev t).filter fun m => 0 < m.len).flatMap fun m =>
        (iterate greedy exec fuel (lookback prev t m.len) (t.drop m.len)).map m.append
      if greedy then more ++ [⟨0, []⟩] else ⟨0, []⟩ :: more

-- All ways to match a prefix of the text, in the order in which they are tried.
def exec : Regex → Option Char → List Char → List Match
  | empty, _, _ => [⟨0, []⟩]
  | chr p, _, t =>
      match t with
      | [] => []
      | c :: _ => if p c then [⟨1, []⟩] else []
  | seq first rest, prev, t =>
      (first.exec prev t).flatMap fun m =>
        (rest.exec (lookback prev t m.len) (t.drop m.len)).map m.append
  | alt first other, prev, t => first.exec prev t ++ other.exec prev t
  | star r, prev, t => iterate true r.exec t.length prev t
  | lazy r, prev, t => iterate false r.exec t.length prev t
  | group r, prev, t => (r.exec prev t).map fun m => ⟨m.len, t.take m.len :: m.groups⟩
  | boundary word, prev, t => if isWord word prev != isWord word t.head? then [⟨0, []⟩] else []
  | final, _, t => if t = [] ∨ t = ['\n'] then [⟨0, []⟩] else []

def plus (r : Regex) : Regex := seq r (star r)

def opt (r : Regex) : Regex := alt r empty

def seqs : List Regex → Regex
  | [] => empty
  | [r] => r
  | r :: rs => seq r (seqs rs)

def alts : List Regex → Regex
  | [] => empty
  | [r] => r
  | r :: rs => alt r (alts rs)

def is (c : Char) : Regex := chr fun d => d = c

def lit (text : String) : Regex := seqs (text.toList.map is)

-- `match`, `fullmatch` and `search`.
def matchAt (r : Regex) (t : List Char) : Option Match := (r.exec none t).head?

def fullmatch (r : Regex) (t : List Char) : Bool :=
  (r.exec none t).any fun m => m.len = t.length

-- The first match in the text, with the part of the text from it on.
def searchFrom (r : Regex) : Option Char → List Char → Option (Match × List Char)
  | prev, [] => (r.exec prev []).head?.map fun m => (m, [])
  | prev, c :: t =>
      match (r.exec prev (c :: t)).head? with
      | some m => some (m, c :: t)
      | none => r.searchFrom (some c) t

def search (r : Regex) (t : List Char) : Option (Match × List Char) := r.searchFrom none t

-- `finditer`, for an expression that does not match the empty text.
def finditerFrom (r : Regex) : Nat → Option Char → List Char → List Match
  | 0, _, _ => []
  | _ + 1, _, [] => []
  | fuel + 1, prev, c :: t =>
      match (r.exec prev (c :: t)).head? with
      | some m => m :: r.finditerFrom fuel (lookback prev (c :: t) m.len) ((c :: t).drop m.len)
      | none => r.finditerFrom fuel (some c) t

def finditer (r : Regex) (t : List Char) : List Match := r.finditerFrom t.length none t

theorem mem_iterate {greedy : Bool} {run : Option Char → List Char → List Match} {fuel : Nat}
    {prev : Option Char} {t : List Char} {m : Match} :
    m ∈ iterate greedy run (fuel + 1) prev t ↔ m = ⟨0, []⟩ ∨
      ∃ a ∈ run prev t, 0 < a.len ∧
        ∃ b ∈ iterate greedy run fuel (lookback prev t a.len) (t.drop a.len), m = a.append b := by
  have hmore : m ∈ ((run prev t).filter fun m => 0 < m.len).flatMap (fun a =>
      (iterate greedy run fuel (lookback prev t a.len) (t.drop a.len)).map a.append) ↔
      ∃ a ∈ run prev t, 0 < a.len ∧
        ∃ b ∈ iterate greedy run fuel (lookback prev t a.len) (t.drop a.len), m = a.append b := by
    simp only [List.mem_flatMap, List.mem_filter, decide_eq_true_eq, List.mem_map, and_assoc,
      eq_comm (a := m)]
  simp only [iterate]
  split_ifs
  · rw [List.mem_append, List.mem_singleton, hmore, or_comm]
  · rw [List.mem_cons, hmore]

theorem mem_seq {first rest : Regex} {prev : Option Char} {t : List Char} {m : Match} :
    m ∈ (seq first rest).exec prev t ↔ ∃ a ∈ first.exec prev t,
      ∃ b ∈ rest.exec (lookback prev t a.len) (t.drop a.len), m = a.append b := by
  simp only [exec, List.mem_flatMap, List.mem_map, eq_comm]

@[simp] theorem len_append (m next : Match) : (m.append next).len = m.len + next.len := rfl

theorem iterate_len {greedy : Bool} {run : Option Char → List Char → List Match}
    (hrun : ∀ prev t, ∀ m ∈ run prev t, m.len ≤ t.length) (fuel : Nat) {prev : Option Char}
    {t : List Char} {m : Match} (h : m ∈ iterate greedy run fuel prev t) : m.len ≤ t.length := by
  induction fuel generalizing prev t m with
  | zero =>
      rw [List.mem_singleton.mp h]
      exact Nat.zero_le _
  | succ fuel ih =>
      rcases mem_iterate.mp h with rfl | ⟨a, ha, _, b, hb, rfl⟩
      · exact Nat.zero_le _
      · have hlen := hrun prev t a ha
        have hrest := ih hb
        rw [List.length_drop] at hrest
        rw [len_append]
        omega

-- A match ends within the text.
theorem exec_len (r : Regex) {prev : Option Char} {t : List Char} {m : Match}
    (h : m ∈ r.exec prev t) : m.len ≤ t.length := by
  induction r generalizing prev t m with
  | empty =>
      rw [List.mem_singleton.mp h]
      exact Nat.zero_le _
  | chr p =>
      cases t with
      | nil => exact nomatch h
      | cons c t =>
          simp only [exec] at h
          split_ifs at h
          · rw [List.mem_singleton.mp h]
            simp
          · exact nomatch h
  | seq first rest ihf ihr =>
      obtain ⟨a, ha, b, hb, rfl⟩ := mem_seq.mp h
      have hfirst := ihf ha
      have hrest := ihr hb
      rw [List.length_drop] at hrest
      rw [len_append]
      omega
  | alt first other ihf iho =>
      cases List.mem_append.mp h with
      | inl h => exact ihf h
      | inr h => exact iho h
  | star r ih => exact iterate_len (fun _ _ _ hm => ih hm) _ h
  | lazy r ih => exact iterate_len (fun _ _ _ hm => ih hm) _ h
  | group r ih =>
      obtain ⟨a, ha, rfl⟩ := List.mem_map.mp h
      exact ih (m := a) ha
  | boundary word =>
      simp only [exec] at h
      split_ifs at h
      · rw [List.mem_singleton.mp h]
        exact Nat.zero_le _
      · exact nomatch h
  | final =>
      simp only [exec] at h
      split_ifs at h
      · rw [List.mem_singleton.mp h]
        exact Nat.zero_le _
      · exact nomatch h

-- Every class of the expression is within `P`.
def Within (P : Char → Prop) : Regex → Prop
  | chr p => ∀ c, p c = true → P c
  | seq a b | alt a b => a.Within P ∧ b.Within P
  | star r | lazy r | group r => r.Within P
  | empty | boundary _ | final => True

theorem all_append {P : Char → Prop} {t : List Char} {i j : Nat}
    (hi : ∀ c ∈ t.take i, P c) (hj : ∀ c ∈ (t.drop i).take j, P c) :
    ∀ c ∈ t.take (i + j), P c := by
  intro c hc
  rw [List.take_add, List.mem_append] at hc
  cases hc with
  | inl h => exact hi c h
  | inr h => exact hj c h

theorem iterate_all {P : Char → Prop} {greedy : Bool}
    {run : Option Char → List Char → List Match}
    (hrun : ∀ prev t, ∀ m ∈ run prev t, ∀ c ∈ t.take m.len, P c) (fuel : Nat)
    {prev : Option Char} {t : List Char} {m : Match} (h : m ∈ iterate greedy run fuel prev t) :
    ∀ c ∈ t.take m.len, P c := by
  induction fuel generalizing prev t m with
  | zero =>
      rw [List.mem_singleton.mp h]
      simp
  | succ fuel ih =>
      rcases mem_iterate.mp h with rfl | ⟨a, ha, _, b, hb, rfl⟩
      · simp
      · exact all_append (hrun prev t a ha) (ih hb)

-- What a match covers.
theorem exec_all {P : Char → Prop} {r : Regex} (hr : r.Within P) {prev : Option Char}
    {t : List Char} {m : Match} (h : m ∈ r.exec prev t) : ∀ c ∈ t.take m.len, P c := by
  induction r generalizing prev t m with
  | empty =>
      rw [List.mem_singleton.mp h]
      simp
  | chr p =>
      cases t with
      | nil => exact nomatch h
      | cons c t =>
          simp only [exec] at h
          split_ifs at h with hp
          · rw [List.mem_singleton.mp h]
            simpa using hr c hp
          · exact nomatch h
  | seq first rest ihf ihr =>
      obtain ⟨a, ha, b, hb, rfl⟩ := mem_seq.mp h
      exact all_append (ihf hr.1 ha) (ihr hr.2 hb)
  | alt first other ihf iho =>
      cases List.mem_append.mp h with
      | inl h => exact ihf hr.1 h
      | inr h => exact iho hr.2 h
  | star r ih => exact iterate_all (fun _ _ _ hm => ih hr hm) _ h
  | lazy r ih => exact iterate_all (fun _ _ _ hm => ih hr hm) _ h
  | group r ih =>
      obtain ⟨a, ha, rfl⟩ := List.mem_map.mp h
      exact ih hr (m := a) ha
  | boundary word =>
      simp only [exec] at h
      split_ifs at h
      · rw [List.mem_singleton.mp h]
        simp
      · exact nomatch h
  | final =>
      simp only [exec] at h
      split_ifs at h
      · rw [List.mem_singleton.mp h]
        simp
      · exact nomatch h

theorem within_seqs {P : Char → Prop} {rs : List Regex} (h : ∀ r ∈ rs, r.Within P) :
    (seqs rs).Within P := by
  induction rs with
  | nil => trivial
  | cons r rs ih =>
      have hrest := ih fun r' hr' => h r' (List.mem_cons_of_mem _ hr')
      cases rs with
      | nil => exact h r List.mem_cons_self
      | cons => exact ⟨h r List.mem_cons_self, hrest⟩

theorem within_lit {P : Char → Prop} {text : String} (h : ∀ c ∈ text.toList, P c) :
    (lit text).Within P := by
  refine within_seqs fun r hr => ?_
  obtain ⟨c, hc, rfl⟩ := List.mem_map.mp hr
  intro d hd
  rw [of_decide_eq_true hd]
  exact h c hc

-- The matches that end within the first `n` characters.
def upTo (n : Nat) (ms : List Match) : List Match := ms.filter fun m => m.len ≤ n

section Replaced

-- A text with the same first part `u`, and its rest replaced as in `R`.
variable {R : Char → Char → Prop} {x x' : List Char}

end Replaced

end Regex

end CortexFlow.Lib
