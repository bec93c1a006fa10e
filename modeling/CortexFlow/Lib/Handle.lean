import Mathlib

namespace CortexFlow.Lib

-- A move-only handle that releases the resource it holds when it is destroyed,
-- reset or assigned over. A moved-from handle holds nothing.
structure Handle (κ : Type*) where
  held : Option κ
deriving DecidableEq

namespace Handle

variable {ι κ : Type*} [DecidableEq ι]

def inert : Handle κ := ⟨none⟩

def active (handle : Handle κ) : Bool := handle.held.isSome

-- The handle objects alive, by address.
abbrev Store (ι κ : Type*) := ι → Option (Handle κ)

inductive Op (ι : Type*)
  | construct (dst : ι)
  | move_construct (dst src : ι)
  | move_assign (dst src : ι)
  | reset (dst : ι)
  | destroy (dst : ι)
deriving DecidableEq

-- The store after the operation, and the resource it released. The operation
-- needs the objects it reads to be alive and the one it constructs not to be.
def Store.apply (store : Store ι κ) : Op ι → Option (Store ι κ × Option κ)
  | .construct dst =>
      match store dst with
      | none => some (Function.update store dst (some inert), none)
      | some _ => none
  | .move_construct dst src =>
      match store dst, store src with
      | none, some other =>
          some (Function.update (Function.update store src (some inert)) dst (some other), none)
      | _, _ => none
  | .move_assign dst src =>
      match store dst, store src with
      | some self, some other =>
          if dst = src then some (store, none)
          else
            some (Function.update (Function.update store src (some inert)) dst (some other),
              self.held)
      | _, _ => none
  | .reset dst =>
      match store dst with
      | none => none
      | some self => some (Function.update store dst (some inert), self.held)
  | .destroy dst =>
      match store dst with
      | none => none
      | some self => some (Function.update store dst none, self.held)

-- A function that returns a handle constructs it at `dst`.
def Store.adopt (store : Store ι κ) (dst : ι) (key : κ) : Option (Store ι κ) :=
  match store dst with
  | none => some (Function.update store dst (some ⟨some key⟩))
  | some _ => none

def Owns (store : Store ι κ) (i : ι) (key : κ) : Prop := store i = some ⟨some key⟩

def Owned (store : Store ι κ) (key : κ) : Prop := ∃ i, Owns store i key

def Unique (store : Store ι κ) : Prop :=
  ∀ i j key, Owns store i key → Owns store j key → i = j

theorem owns_update (store : Store ι κ) (dst i : ι) (value : Option (Handle κ)) (key : κ) :
    Owns (Function.update store dst value) i key ↔
      (i = dst ∧ value = some ⟨some key⟩) ∨ (i ≠ dst ∧ Owns store i key) := by
  unfold Owns
  rw [Function.update_apply]
  split_ifs with h <;> simp [h]

@[simp] theorem not_some_inert (key : κ) : (some inert : Option (Handle κ)) ≠ some ⟨some key⟩ := by
  simp [inert]

omit [DecidableEq ι] in
theorem owns_held {store : Store ι κ} {i : ι} {handle : Handle κ} (h : store i = some handle)
    (key : κ) : Owns store i key ↔ handle.held = some key := by
  cases handle
  simp [Owns, h]

-- The object at `dst` no longer owns anything, and no other object changed.
theorem owned_update (store : Store ι κ) (dst : ι) (value : Option (Handle κ))
    (hu : Unique store) (hv : ∀ key, value ≠ some ⟨some key⟩) :
    Unique (Function.update store dst value) ∧
      ∀ key, Owned (Function.update store dst value) key ↔
        Owned store key ∧ ¬Owns store dst key := by
  refine ⟨fun i j key hi hj => ?_, fun key => ⟨?_, ?_⟩⟩
  · simp only [owns_update, hv, and_false, false_or] at hi hj
    exact hu i j key hi.2 hj.2
  · rintro ⟨i, hi⟩
    simp only [owns_update, hv, and_false, false_or] at hi
    exact ⟨⟨i, hi.2⟩, fun hd => hi.1 (hu i dst key hi.2 hd)⟩
  · rintro ⟨⟨i, hi⟩, hd⟩
    have hne : i ≠ dst := fun he => hd (he ▸ hi)
    exact ⟨i, (owns_update ..).mpr (Or.inr ⟨hne, hi⟩)⟩

-- The resource of `src` passes to `dst`, which owned nothing.
theorem owned_transfer (store : Store ι κ) (dst src : ι) (other : Handle κ) (hu : Unique store)
    (hne : dst ≠ src) (hd : ∀ key, ¬Owns store dst key) (hs : store src = some other) :
    Unique (Function.update (Function.update store src (some inert)) dst (some other)) ∧
      ∀ key, Owned (Function.update (Function.update store src (some inert)) dst (some other)) key ↔
        Owned store key := by
  have howns (i : ι) (key : κ) :
      Owns (Function.update (Function.update store src (some inert)) dst (some other)) i key ↔
        (i = dst ∧ Owns store src key) ∨ (i ≠ src ∧ Owns store i key) := by
    simp only [owns_update, owns_held hs, not_some_inert, and_false, false_or]
    by_cases hi : i = dst
    · subst hi
      cases other
      simp [hd]
    · simp [hi]
  refine ⟨fun i j key hi hj => ?_, fun key => ⟨?_, ?_⟩⟩
  · rw [howns] at hi hj
    rcases hi with ⟨rfl, hi⟩ | ⟨hi, hoi⟩ <;> rcases hj with ⟨rfl, hj⟩ | ⟨hj, hoj⟩
    · rfl
    · exact absurd (hu _ _ key hoj hi) hj
    · exact absurd (hu _ _ key hoi hj) hi
    · exact hu i j key hoi hoj
  · rintro ⟨i, hi⟩
    rcases (howns i key).mp hi with ⟨_, hi⟩ | ⟨_, hi⟩
    · exact ⟨src, hi⟩
    · exact ⟨i, hi⟩
  · rintro ⟨i, hi⟩
    by_cases he : i = src
    · exact ⟨dst, (howns dst key).mpr (Or.inl ⟨rfl, he ▸ hi⟩)⟩
    · exact ⟨i, (howns i key).mpr (Or.inr ⟨he, hi⟩)⟩

-- Every operation keeps each resource in one hand, and what it releases is
-- exactly what no handle owns any more.
theorem apply_owned {store next : Store ι κ} {op : Op ι} {released : Option κ}
    (hu : Unique store) (h : store.apply op = some (next, released)) :
    Unique next ∧ (∀ key, Owned next key ↔ Owned store key ∧ released ≠ some key) ∧
      ∀ key, released = some key → Owned store key := by
  cases op with
  | construct dst =>
      simp only [Store.apply] at h
      split at h <;> simp only [Option.some.injEq, Prod.mk.injEq, reduceCtorEq] at h
      rename_i hd
      obtain ⟨rfl, rfl⟩ := h
      have ho := owned_update store dst (some inert) hu not_some_inert
      refine ⟨ho.1, fun key => (ho.2 key).trans ?_, by simp⟩
      simp [Owns, hd]
  | move_construct dst src =>
      simp only [Store.apply] at h
      split at h <;> simp only [Option.some.injEq, Prod.mk.injEq, reduceCtorEq] at h
      rename_i other hd hs
      obtain ⟨rfl, rfl⟩ := h
      have hne : dst ≠ src := by
        rintro rfl
        simp [hd] at hs
      have ho := owned_transfer store dst src other hu hne (by simp [Owns, hd]) hs
      exact ⟨ho.1, fun key => by simp [ho.2 key], by simp⟩
  | move_assign dst src =>
      simp only [Store.apply] at h
      split at h
      case h_2 => exact nomatch h
      rename_i self other hd hs
      split at h <;> simp only [Option.some.injEq, Prod.mk.injEq] at h
      · obtain ⟨rfl, rfl⟩ := h
        exact ⟨hu, by simp, by simp⟩
      · rename_i hne
        obtain ⟨rfl, rfl⟩ := h
        -- The assignment releases first, which leaves `dst` inert.
        have hr := owned_update store dst (some inert) hu not_some_inert
        have ho := owned_transfer (Function.update store dst (some inert)) dst src other hr.1 hne
          (by simp [Owns, inert]) (by rw [Function.update_of_ne (Ne.symm hne), hs])
        rw [Function.update_comm hne, Function.update_idem] at ho
        refine ⟨ho.1, fun key => ?_, fun key hk => ⟨dst, (owns_held hd key).mpr hk⟩⟩
        rw [ho.2, hr.2, owns_held hd]
  | reset dst =>
      simp only [Store.apply] at h
      split at h <;> simp only [Option.some.injEq, Prod.mk.injEq, reduceCtorEq] at h
      rename_i self hd
      obtain ⟨rfl, rfl⟩ := h
      have ho := owned_update store dst (some inert) hu not_some_inert
      refine ⟨ho.1, fun key => ?_, fun key hk => ⟨dst, (owns_held hd key).mpr hk⟩⟩
      rw [ho.2, owns_held hd]
  | destroy dst =>
      simp only [Store.apply] at h
      split at h <;> simp only [Option.some.injEq, Prod.mk.injEq, reduceCtorEq] at h
      rename_i self hd
      obtain ⟨rfl, rfl⟩ := h
      have ho := owned_update store dst none hu (by simp)
      refine ⟨ho.1, fun key => ?_, fun key hk => ⟨dst, (owns_held hd key).mpr hk⟩⟩
      rw [ho.2, owns_held hd]

-- A resource nobody owned yet comes into the one hand that adopts it.
theorem adopt_owned {store next : Store ι κ} {dst : ι} {fresh : κ} (hu : Unique store)
    (hf : ¬Owned store fresh) (h : store.adopt dst fresh = some next) :
    Unique next ∧ ∀ key, Owned next key ↔ Owned store key ∨ key = fresh := by
  simp only [Store.adopt] at h
  split at h <;> simp only [Option.some.injEq, reduceCtorEq] at h
  rename_i hd
  subst h
  have howns (i : ι) (key : κ) : Owns (Function.update store dst (some ⟨some fresh⟩)) i key ↔
      (i = dst ∧ key = fresh) ∨ Owns store i key := by
    rw [owns_update]
    by_cases hi : i = dst
    · subst hi
      simp [Owns, hd, eq_comm]
    · simp [hi]
  refine ⟨fun i j key hi hj => ?_, fun key => ⟨?_, ?_⟩⟩
  · rcases (howns i key).mp hi with ⟨rfl, rfl⟩ | hi' <;>
      rcases (howns j _).mp hj with ⟨rfl, hk⟩ | hj'
    · rfl
    · exact absurd ⟨j, hj'⟩ hf
    · exact absurd ⟨i, hk ▸ hi'⟩ hf
    · exact hu i j key hi' hj'
  · rintro ⟨i, hi⟩
    rcases (howns i key).mp hi with ⟨_, hk⟩ | hi'
    · exact Or.inr hk
    · exact Or.inl ⟨i, hi'⟩
  · rintro (⟨i, hi⟩ | hk)
    · exact ⟨i, (howns i key).mpr (Or.inr hi)⟩
    · exact ⟨dst, (howns dst key).mpr (Or.inl ⟨rfl, hk⟩)⟩

-- The same handles with their resources under other names.
def Store.map {ν : Type*} (f : κ → ν) (store : Store ι κ) : Store ι ν :=
  fun i => (store i).map fun handle => ⟨handle.held.map f⟩

theorem map_update {ν : Type*} (f : κ → ν) (store : Store ι κ) (dst : ι)
    (value : Option (Handle κ)) :
    Store.map f (Function.update store dst value) =
      Function.update (Store.map f store) dst (value.map fun handle => ⟨handle.held.map f⟩) := by
  funext i
  by_cases hi : i = dst
  · subst hi
    simp [Store.map]
  · simp [Store.map, hi]

omit [DecidableEq ι] in
theorem map_congr {ν : Type*} {f g : κ → ν} {store : Store ι κ}
    (h : ∀ key, Owned store key → f key = g key) : store.map f = store.map g := by
  funext i
  unfold Store.map
  cases hi : store i with
  | none => rfl
  | some handle =>
      cases handle with
      | mk held =>
          cases held with
          | none => rfl
          | some key => simp [h key ⟨i, hi⟩]

omit [DecidableEq ι] in
theorem owned_map {ν : Type*} (f : κ → ν) (store : Store ι κ) (name : ν) :
    Owned (store.map f) name ↔ ∃ key, Owned store key ∧ f key = name := by
  constructor
  · rintro ⟨i, hi⟩
    simp only [Owns, Store.map, Option.map_eq_some_iff, Handle.mk.injEq] at hi
    obtain ⟨handle, hs, key, hk, hf⟩ := hi
    exact ⟨key, ⟨i, (owns_held hs key).mpr hk⟩, hf⟩
  · rintro ⟨key, ⟨i, hi⟩, hf⟩
    have hs : store i = some ⟨some key⟩ := hi
    exact ⟨i, by simp [Owns, Store.map, hs, hf]⟩

theorem adopt_map {ν : Type*} (f : κ → ν) (store : Store ι κ) (dst : ι) (key : κ) :
    (store.map f).adopt dst (f key) = (store.adopt dst key).map (Store.map f) := by
  unfold Store.adopt
  cases hd : store dst with
  | none => simp [Store.map, hd, map_update]
  | some self => simp [Store.map, hd]

-- No operation looks at what the handles hold.
theorem apply_map {ν : Type*} (f : κ → ν) (store : Store ι κ) (op : Op ι) :
    (store.map f).apply op =
      (store.apply op).map fun result => (result.1.map f, result.2.map f) := by
  cases op with
  | construct dst =>
      simp only [Store.apply]
      cases hd : store dst with
      | none => simp [Store.map, hd, map_update, inert]
      | some self => simp [Store.map, hd]
  | move_construct dst src =>
      simp only [Store.apply]
      cases hd : store dst with
      | none =>
          cases hs : store src with
          | none => simp [Store.map, hd, hs]
          | some other => simp [Store.map, hd, hs, map_update, inert]
      | some self => simp [Store.map, hd]
  | move_assign dst src =>
      simp only [Store.apply]
      cases hd : store dst with
      | none => simp [Store.map, hd]
      | some self =>
          cases hs : store src with
          | none => simp [Store.map, hd, hs]
          | some other =>
              by_cases he : dst = src
              · simp [Store.map, hs, he]
              · simp [Store.map, hd, hs, he, map_update, inert]
  | reset dst =>
      simp only [Store.apply]
      cases hd : store dst with
      | none => simp [Store.map, hd]
      | some self => simp [Store.map, hd, map_update, inert]
  | destroy dst =>
      simp only [Store.apply]
      cases hd : store dst with
      | none => simp [Store.map, hd]
      | some self => simp [Store.map, hd, map_update]

end Handle

end CortexFlow.Lib
