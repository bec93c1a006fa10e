import Mathlib

namespace CortexFlow.Lib

-- Something that is in at most one of several places.
def Token {κ : Type*} (at_ : κ → Prop) : Prop := ∀ p q, at_ p → at_ q → p = q

namespace Token

variable {κ : Type*} {before after : κ → Prop}

theorem absent (h : ∀ p, ¬after p) : Token after := fun p _ hp => absurd hp (h p)

theorem created {dst : κ} (h : ∀ p, after p → p = dst) : Token after :=
  fun p q hp hq => (h p hp).trans (h q hq).symm

theorem kept (h : Token before) (hsub : ∀ p, after p → before p) : Token after :=
  fun p q hp hq => h p q (hsub p hp) (hsub q hq)

-- What a step may do with a token: it stays where it is, is lost, or goes to `dst`.
def Moves (before after : κ → Prop) : Prop :=
  ∃ dst, ∀ p, after p → before p ∨ p = dst ∧ ∃ src, before src ∧ ¬after src

theorem moved (h : Token before) (hm : Moves before after) : Token after := by
  obtain ⟨dst, hmove⟩ := hm
  have hold {p src : κ} (hp : after p) (hb : before p) (hs : before src) : after src :=
    h p src hb hs ▸ hp
  intro p q hp hq
  rcases hmove p hp with hbp | ⟨rfl, src, hsrc, hgone⟩
  · rcases hmove q hq with hbq | ⟨rfl, src, hsrc, hgone⟩
    · exact h p q hbp hbq
    · exact absurd (hold hp hbp hsrc) hgone
  · rcases hmove q hq with hbq | ⟨rfl, _⟩
    · exact absurd (hold hq hbq hsrc) hgone
    · rfl

end Token

section Trail

variable {α : Type*} {p q : α → Prop}

-- Everything `q` holds of comes after something `p` holds of.
def Preceded (p q : α → Prop) (trail : List α) : Prop :=
  ∀ before x after, trail = before ++ x :: after → q x → ∃ y ∈ before, p y

theorem preceded_nil : Preceded p q [] := by
  intro before x after h
  cases before with
  | nil => cases h
  | cons y before => cases h

theorem preceded_concat (trail : List α) (x : α) :
    Preceded p q (trail ++ [x]) ↔ Preceded p q trail ∧ (q x → ∃ y ∈ trail, p y) := by
  constructor
  · intro h
    refine ⟨fun before y after heq hy => ?_, fun hx => h trail x [] rfl hx⟩
    exact h before y (after ++ [x]) (by simp [heq]) hy
  · rintro ⟨htrail, hlast⟩ before y after heq hy
    rcases List.eq_nil_or_concat after with rfl | ⟨rest, z, rfl⟩
    · obtain ⟨rfl, hxy⟩ := List.append_inj' heq rfl
      cases hxy
      exact hlast hy
    · have hsplit : trail ++ [x] = (before ++ y :: rest) ++ [z] := by simpa using heq
      obtain ⟨hfront, _⟩ := List.append_inj' hsplit rfl
      exact htrail before y rest hfront hy

end Trail

end CortexFlow.Lib
