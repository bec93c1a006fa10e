import Mathlib

namespace CortexFlow.Lib

-- What a separator keeps apart can be told from the whole.
namespace Lines

variable {α : Type*} {sep : α}

theorem split_first {front back front' back' : List α} (h : sep ∉ front) (h' : sep ∉ front')
    (heq : front ++ sep :: back = front' ++ sep :: back') : front = front' ∧ back = back' := by
  induction front generalizing front' with
  | nil =>
      cases front' with
      | nil => exact ⟨rfl, (List.cons.inj heq).2⟩
      | cons a front' =>
          obtain ⟨rfl, -⟩ := List.cons.inj heq
          exact absurd List.mem_cons_self h'
  | cons a front ih =>
      cases front' with
      | nil =>
          obtain ⟨rfl, -⟩ := List.cons.inj heq
          exact absurd List.mem_cons_self h
      | cons b front' =>
          obtain ⟨rfl, hrest⟩ := List.cons.inj heq
          obtain ⟨rfl, hback⟩ := ih (fun hmem => h (List.mem_cons_of_mem _ hmem))
            (fun hmem => h' (List.mem_cons_of_mem _ hmem)) hrest
          exact ⟨rfl, hback⟩

theorem split_last {front back front' back' : List α} (h : sep ∉ back) (h' : sep ∉ back')
    (heq : front ++ sep :: back = front' ++ sep :: back') : front = front' ∧ back = back' := by
  have hreverse := congrArg List.reverse heq
  simp only [List.reverse_append, List.reverse_cons, List.append_assoc,
    List.singleton_append] at hreverse
  obtain ⟨hback, hfront⟩ :=
    split_first (by simpa using h) (by simpa using h') hreverse
  exact ⟨List.reverse_injective hfront, List.reverse_injective hback⟩

-- What is told of each element is told of the list.
theorem map_eq_of_mem {β γ δ : Type*} {f : β → γ} {g : β → δ} {l l' : List β}
    (hg : ∀ a ∈ l, ∀ b ∈ l', f a = f b → g a = g b) (h : l.map f = l'.map f) :
    l.map g = l'.map g := by
  induction l generalizing l' with
  | nil => rw [List.map_eq_nil_iff.mp h.symm]
  | cons a l ih =>
      cases l' with
      | nil => cases h
      | cons b l' =>
          obtain ⟨hhead, htail⟩ := List.cons.inj h
          have hrest := ih (fun c hc d hd => hg c (List.mem_cons_of_mem _ hc) d
            (List.mem_cons_of_mem _ hd)) htail
          rw [List.map_cons, List.map_cons, hrest,
            hg a List.mem_cons_self b List.mem_cons_self hhead]

theorem map_inj_of_mem {β γ : Type*} {f : β → γ} {l l' : List β}
    (hf : ∀ a ∈ l, ∀ b ∈ l', f a = f b → a = b) (h : l.map f = l'.map f) : l = l' := by
  have hid := map_eq_of_mem (g := id) hf h
  rwa [List.map_id, List.map_id] at hid

section Marked

variable {β γ : Type*} {P : β → Prop} {front back : β → List α} {key : β → γ}

-- Parts with one mark each can be told, if what stands before the mark tells a key, whatever
-- stands before the part, and the mark is nowhere else.
theorem marked_inj (hfront : ∀ b, P b → sep ∉ front b) (hback : ∀ b, P b → sep ∉ back b)
    (hkey : ∀ t t' b b', P b → P b' → t ++ front b = t' ++ front b' → t = t' ∧ key b = key b')
    {parts parts' : List β} (h : ∀ b ∈ parts, P b) (h' : ∀ b ∈ parts', P b) {t t' : List α}
    (ht : sep ∉ t) (ht' : sep ∉ t')
    (heq : t ++ parts.flatMap (fun b => front b ++ sep :: back b) =
      t' ++ parts'.flatMap fun b => front b ++ sep :: back b) :
    t = t' ∧ parts.map (fun b => (key b, back b)) = parts'.map fun b => (key b, back b) := by
  induction parts generalizing parts' t t' with
  | nil =>
      cases parts' with
      | nil => exact ⟨by simpa using heq, rfl⟩
      | cons b' parts' =>
          rw [List.flatMap_nil, List.append_nil] at heq
          rw [heq] at ht
          simp at ht
  | cons b parts ih =>
      cases parts' with
      | nil =>
          rw [List.flatMap_nil, List.append_nil] at heq
          rw [← heq] at ht'
          simp at ht'
      | cons b' parts' =>
          obtain ⟨hb, hparts⟩ := List.forall_mem_cons.mp h
          obtain ⟨hb', hparts'⟩ := List.forall_mem_cons.mp h'
          have hmark : (t ++ front b) ++ sep :: (back b ++
                parts.flatMap fun b => front b ++ sep :: back b) =
              (t' ++ front b') ++ sep :: (back b' ++
                parts'.flatMap fun b => front b ++ sep :: back b) := by
            simpa using heq
          obtain ⟨hbefore, hbehind⟩ := split_first
            (by rw [List.mem_append, not_or]; exact ⟨ht, hfront b hb⟩)
            (by rw [List.mem_append, not_or]; exact ⟨ht', hfront b' hb'⟩) hmark
          obtain ⟨hsame, hkeys⟩ := hkey t t' b b' hb hb' hbefore
          obtain ⟨hbacks, hrest⟩ := ih hparts hparts' (hback b hb) (hback b' hb') hbehind
          exact ⟨hsame, by rw [List.map_cons, List.map_cons, hkeys, hbacks, hrest]⟩

end Marked

-- The lines of a text, each with the separator behind it.
def joined (sep : α) (lines : List (List α)) : List α := [sep].intercalate lines ++ [sep]

theorem joined_eq {lines : List (List α)} (h : lines ≠ []) :
    joined sep lines = lines.flatMap fun line => line ++ [sep] := by
  obtain ⟨line, lines, rfl⟩ := List.exists_cons_of_ne_nil h
  rw [joined]
  induction lines generalizing line with
  | nil => simp
  | cons next lines ih =>
      rw [List.flatMap_cons, ← ih next (List.cons_ne_nil _ _), List.intercalate_cons_cons]
      simp

-- Lines that have something on them, up to the first that has nothing.
theorem until_blank {lines lines' : List (List α)} {rest rest' : List α}
    (h : ∀ line ∈ lines, line ≠ [] ∧ sep ∉ line) (h' : ∀ line ∈ lines', line ≠ [] ∧ sep ∉ line)
    (heq : (lines.flatMap fun line => line ++ [sep]) ++ sep :: rest =
      (lines'.flatMap fun line => line ++ [sep]) ++ sep :: rest') :
    lines = lines' ∧ rest = rest' := by
  have hblank {line tail tail' : List α} (hline : line ≠ [] ∧ sep ∉ line) :
      sep :: tail ≠ line ++ tail' := by
    obtain ⟨c, line, rfl⟩ := List.exists_cons_of_ne_nil hline.1
    intro he
    exact hline.2 ((List.cons.inj he).1 ▸ List.mem_cons_self)
  induction lines generalizing lines' with
  | nil =>
      cases lines' with
      | nil => exact ⟨rfl, (List.cons.inj heq).2⟩
      | cons line' lines' =>
          simp only [List.flatMap_nil, List.nil_append, List.flatMap_cons,
            List.append_assoc] at heq
          exact absurd heq (hblank (h' line' List.mem_cons_self))
  | cons line lines ih =>
      cases lines' with
      | nil =>
          simp only [List.flatMap_nil, List.nil_append, List.flatMap_cons,
            List.append_assoc] at heq
          exact absurd heq.symm (hblank (h line List.mem_cons_self))
      | cons line' lines' =>
          obtain ⟨hline, hlines⟩ := List.forall_mem_cons.mp h
          obtain ⟨hline', hlines'⟩ := List.forall_mem_cons.mp h'
          simp only [List.flatMap_cons, List.append_assoc, List.singleton_append] at heq
          obtain ⟨rfl, hbehind⟩ := split_first hline.2 hline'.2 heq
          obtain ⟨rfl, hrest⟩ := ih hlines hlines' hbehind
          exact ⟨rfl, hrest⟩

theorem joined_injective [DecidableEq α] {lines lines' : List (List α)} (hne : lines ≠ [])
    (hne' : lines' ≠ []) (h : ∀ line ∈ lines, sep ∉ line) (h' : ∀ line ∈ lines', sep ∉ line)
    (heq : joined sep lines = joined sep lines') : lines = lines' := by
  have hsplit := congrArg (List.splitOn sep) (List.append_cancel_right heq)
  rwa [List.splitOn_intercalate sep h hne, List.splitOn_intercalate sep h' hne'] at hsplit

end Lines

end CortexFlow.Lib
