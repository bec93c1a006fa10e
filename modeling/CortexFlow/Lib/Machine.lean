import Mathlib

namespace CortexFlow.Lib

-- A system given by its start state and a step function. `none` says that
-- the step cannot be taken in that state.
structure Machine (σ ι : Type*) where
  init : σ
  step : σ → ι → Option σ

namespace Machine

variable {σ ι : Type*}

def run (m : Machine σ ι) : σ → List ι → Option σ
  | s, [] => some s
  | s, i :: is => (m.step s i).bind fun next => m.run next is

def Reachable (m : Machine σ ι) (s : σ) : Prop :=
  ∃ is, m.run m.init is = some s

-- Every step the run takes meets `g` in the state it is taken from.
def Meets (m : Machine σ ι) (g : σ → ι → Prop) : σ → List ι → Prop
  | _, [] => True
  | s, i :: is => g s i ∧ ∀ next, m.step s i = some next → m.Meets g next is

variable {m : Machine σ ι} {g : σ → ι → Prop}

theorem run_cons_some {s t : σ} {i : ι} {is : List ι} (h : m.run s (i :: is) = some t) :
    ∃ next, m.step s i = some next ∧ m.run next is = some t :=
  Option.bind_eq_some_iff.mp h

theorem run_append (s : σ) (is js : List ι) :
    m.run s (is ++ js) = (m.run s is).bind fun t => m.run t js := by
  induction is generalizing s with
  | nil => rfl
  | cons i is ih =>
      simp only [List.cons_append, run, Option.bind_assoc, ih]

theorem run_concat {s t u : σ} {is : List ι} {i : ι} (h : m.run s is = some t)
    (hs : m.step t i = some u) : m.run s (is ++ [i]) = some u := by
  simp only [run_append, h, Option.bind_some, run, hs]

theorem Reachable.init : m.Reachable m.init := ⟨[], rfl⟩

theorem Reachable.next {s t : σ} {i : ι} (h : m.Reachable s) (hs : m.step s i = some t) :
    m.Reachable t := by
  obtain ⟨is, hr⟩ := h
  exact ⟨is ++ [i], run_concat hr hs⟩

theorem Reachable.run {s t : σ} {is : List ι} (h : m.Reachable s) (hr : m.run s is = some t) :
    m.Reachable t := by
  obtain ⟨js, hj⟩ := h
  exact ⟨js ++ is, by simp only [run_append, hj, Option.bind_some, hr]⟩

-- What one step keeps, a run keeps, as long as its steps meet the guard.
theorem run_invariant_of_meets {I : σ → Prop}
    (hstep : ∀ s i t, I s → g s i → m.step s i = some t → I t)
    {s t : σ} {is : List ι} (hs : I s) (hm : m.Meets g s is) (h : m.run s is = some t) : I t := by
  induction is generalizing s with
  | nil => exact Option.some.inj h ▸ hs
  | cons i is ih =>
      obtain ⟨next, hn, hr⟩ := run_cons_some h
      exact ih (hstep s i next hs hm.1 hn) (hm.2 next hn) hr

instance decidableMeets [∀ s i, Decidable (g s i)] :
    (s : σ) → (is : List ι) → Decidable (m.Meets g s is)
  | _, [] => isTrue trivial
  | s, i :: is =>
      match h : m.step s i with
      | none =>
          decidable_of_iff (g s i) ⟨fun hg => ⟨hg, fun _ hn => nomatch h.symm.trans hn⟩, And.left⟩
      | some next =>
          have := decidableMeets next is
          decidable_of_iff (g s i ∧ m.Meets g next is)
            ⟨fun hg => ⟨hg.1, fun _ hn => Option.some.inj (h.symm.trans hn) ▸ hg.2⟩,
              fun hg => ⟨hg.1, hg.2 next h⟩⟩

theorem meets_of_forall (h : ∀ s i, g s i) (s : σ) (is : List ι) : m.Meets g s is := by
  induction is generalizing s with
  | nil => trivial
  | cons i is ih => exact ⟨h s i, fun next _ => ih next⟩

theorem run_invariant {I : σ → Prop} (hstep : ∀ s i t, I s → m.step s i = some t → I t)
    {s t : σ} {is : List ι} (hs : I s) (h : m.run s is = some t) : I t :=
  run_invariant_of_meets (g := fun _ _ => True) (fun s i t hi _ => hstep s i t hi) hs
    (meets_of_forall (fun _ _ => trivial) s is) h

theorem Reachable.invariant {I : σ → Prop} {s : σ} (h : m.Reachable s) (hinit : I m.init)
    (hstep : ∀ s i t, I s → m.step s i = some t → I t) : I s := by
  obtain ⟨is, hr⟩ := h
  exact run_invariant hstep hinit hr

theorem Meets.imp {g' : σ → ι → Prop} (hg : ∀ s i, g s i → g' s i) {s : σ} {is : List ι}
    (h : m.Meets g s is) : m.Meets g' s is := by
  induction is generalizing s with
  | nil => trivial
  | cons i is ih => exact ⟨hg s i h.1, fun next hn => ih (h.2 next hn)⟩

theorem Meets.append {s t : σ} {is js : List ι} (h : m.Meets g s (is ++ js))
    (hr : m.run s is = some t) : m.Meets g s is ∧ m.Meets g t js := by
  induction is generalizing s with
  | nil => exact ⟨trivial, Option.some.inj hr ▸ h⟩
  | cons i is ih =>
      obtain ⟨next, hn, hr⟩ := run_cons_some hr
      refine ⟨⟨h.1, fun other ho => ?_⟩, (ih (h.2 next hn) hr).2⟩
      have he : next = other := Option.some.inj (hn.symm.trans ho)
      exact he ▸ (ih (h.2 next hn) hr).1

theorem Meets.trans {s t : σ} {is js : List ι} (h : m.Meets g s is) (hr : m.run s is = some t)
    (hjs : m.Meets g t js) : m.Meets g s (is ++ js) := by
  induction is generalizing s with
  | nil => exact Option.some.inj hr ▸ hjs
  | cons i is ih =>
      obtain ⟨next, hn, hr⟩ := run_cons_some hr
      refine ⟨h.1, fun other ho => ?_⟩
      obtain rfl : next = other := Option.some.inj (hn.symm.trans ho)
      exact ih (h.2 next hn) hr

-- A property that one step keeps exactly if it meets the guard holds at the end
-- of a run exactly if all its steps do.
theorem run_iff_meets {I P : σ → Prop} (hinv : ∀ s i t, I s → m.step s i = some t → I t)
    (hstep : ∀ s i t, I s → m.step s i = some t → (P t ↔ P s ∧ g s i))
    {s t : σ} {is : List ι} (hs : I s) (h : m.run s is = some t) :
    P t ↔ P s ∧ m.Meets g s is := by
  induction is generalizing s with
  | nil =>
      obtain rfl := Option.some.inj h
      exact (and_iff_left trivial).symm
  | cons i is ih =>
      obtain ⟨next, hn, hr⟩ := run_cons_some h
      have hmeets : m.Meets g s (i :: is) ↔ g s i ∧ m.Meets g next is := by
        refine and_congr_right fun _ => ⟨fun hall => hall next hn, fun hnext other ho => ?_⟩
        exact Option.some.inj (hn.symm.trans ho) ▸ hnext
      rw [ih (hinv s i next hs hn) hr, hstep s i next hs hn, hmeets, and_assoc]

-- Runs of a system whose steps are a relation.
inductive Steps {τ κ : Type*} (next : τ → κ → τ → Prop) : τ → List κ → τ → Prop
  | nil (a : τ) : Steps next a [] a
  | cons {a b c : τ} {k : κ} {ks : List κ} :
      next a k b → Steps next b ks c → Steps next a (k :: ks) c

-- A forward simulation carries every run whose steps meet the guard to a run
-- of the abstract system on the same events.
theorem simulation {τ : Type*} {next : τ → ι → τ → Prop} {R : σ → τ → Prop}
    (hstep : ∀ s a i t, R s a → g s i → m.step s i = some t → ∃ b, next a i b ∧ R t b)
    {s t : σ} {a : τ} {is : List ι} (ha : R s a) (hm : m.Meets g s is)
    (h : m.run s is = some t) : ∃ b, Steps next a is b ∧ R t b := by
  induction is generalizing s a with
  | nil => exact ⟨a, .nil a, Option.some.inj h ▸ ha⟩
  | cons i is ih =>
      obtain ⟨mid, hn, hr⟩ := run_cons_some h
      obtain ⟨b, hb, hR⟩ := hstep s a i mid ha hm.1 hn
      obtain ⟨c, hc, hR'⟩ := ih hR (hm.2 mid hn) hr
      exact ⟨c, .cons hb hc, hR'⟩

end Machine

end CortexFlow.Lib
