import Mathlib.Data.List.Forall2

/-!
# Computations that may fail

When a sequence of steps, each of which may fail, succeeds as a whole.
-/

namespace Plexus

variable {α β σ ε : Type}

/-- Two steps succeed if the first does and the second does on its result. -/
theorem bind_eq_ok {x : Except ε α} {f : α → Except ε β} {b : β} :
    x >>= f = .ok b ↔ ∃ a, x = .ok a ∧ f a = .ok b := by
  cases x with
  | error fault => exact ⟨fun hh => (by cases hh), fun ⟨_, hh, _⟩ => (by cases hh)⟩
  | ok a => exact ⟨fun hh => ⟨a, rfl, hh⟩, fun ⟨_, hh, hf⟩ => (by cases hh; exact hf)⟩

/-- Two ways to a value that is used alike. -/
theorem choice_eq_ok {c : Prop} [Decidable c] {x y : Except ε α} {f : α → Except ε β} {b : β} :
    (if c then x >>= f else y >>= f) = .ok b ↔
      ∃ a, (if c then x else y) = .ok a ∧ f a = .ok b := by
  split <;> exact bind_eq_ok

/-- A guarded step succeeds if the guard lets it through and it does. -/
theorem guard_eq_ok {c : Prop} [Decidable c] {fault : ε} {f : Unit → Except ε β} {b : β} :
    (if c then throw fault >>= f else f ()) = .ok b ↔ ¬c ∧ f () = .ok b := by
  split
  · rename_i hc
    exact ⟨fun hh => (by cases hh), fun hh => absurd hc hh.1⟩
  · rename_i hc
    exact ⟨fun hh => ⟨hc, hh⟩, fun hh => hh.2⟩

/-- All checks of a list succeed if each one does. -/
theorem forM_eq_ok {f : α → Except ε Unit} {l : List α} :
    l.forM f = .ok () ↔ ∀ a ∈ l, f a = .ok () := by
  induction l with
  | nil => simp [List.forM, pure, Except.pure]
  | cons a rest ih =>
    rw [List.forall_mem_cons, ← ih]
    cases hfa : f a with
    | error fault => simp [List.forM, hfa, bind, Except.bind]
    | ok u => simp [List.forM, hfa, bind, Except.bind]

/-- A step on every element succeeds if it does on each. -/
theorem mapM_eq_ok {f : α → Except ε β} {l : List α} {bs : List β} :
    l.mapM f = .ok bs ↔ List.Forall₂ (fun a b => f a = .ok b) l bs := by
  induction l generalizing bs with
  | nil => simp [pure, Except.pure, eq_comm]
  | cons a rest ih =>
    rw [List.mapM_cons, bind_eq_ok]
    constructor
    · rintro ⟨b, hb, h⟩
      obtain ⟨bs, hbs, ⟨⟩⟩ := bind_eq_ok.1 h
      exact .cons hb (ih.1 hbs)
    · rintro (- | ⟨hb, hbs⟩)
      exact ⟨_, hb, bind_eq_ok.2 ⟨_, ih.2 hbs, rfl⟩⟩

/-- A step that replaces every element by some succeeds if it does on each. -/
theorem exists_flatMapM_eq_ok {f : α → Except ε (List β)} {l : List α}
    (h : ∀ a ∈ l, ∃ bs, f a = .ok bs) : ∃ bs, l.flatMapM f = .ok bs := by
  induction l with
  | nil => exact ⟨[], rfl⟩
  | cons a rest ih =>
    rw [List.forall_mem_cons] at h
    obtain ⟨⟨first, hfirst⟩, hrest⟩ := h
    obtain ⟨others, hothers⟩ := ih hrest
    rw [List.flatMapM_cons]
    exact ⟨first ++ others, bind_eq_ok.2 ⟨first, hfirst, bind_eq_ok.2 ⟨others, hothers, rfl⟩⟩⟩

/-- What every step makes certain holds of all results. -/
theorem forall_of_mapM {f : α → Except ε β} {l : List α} {bs : List β} {P : β → Prop}
    (h : l.mapM f = .ok bs) (hf : ∀ a b, f a = .ok b → P b) : ∀ b ∈ bs, P b := by
  have hall := mapM_eq_ok.1 h
  clear h
  induction hall with
  | nil => exact List.forall_mem_nil _
  | cons hb _ ih => exact List.forall_mem_cons.2 ⟨hf _ _ hb, ih⟩

/-- Steps whose results are pushed onto an array succeed if each one does. -/
theorem foldlM_push_eq_ok {f : α → Except ε β} {l : List α} {before after : Array β} :
    l.foldlM (fun acc a => (f a).map acc.push) before = .ok after ↔
      ∃ bs, l.mapM f = .ok bs ∧ after = before ++ bs.toArray := by
  induction l generalizing before with
  | nil => simp [pure, Except.pure, eq_comm]
  | cons a rest ih =>
    rw [List.foldlM_cons, List.mapM_cons]
    cases hfa : f a with
    | error fault => exact ⟨fun hh => (by cases hh), fun ⟨_, hh, _⟩ => (by cases hh)⟩
    | ok b =>
      have hrest : rest.foldlM (fun acc a => (f a).map acc.push) (before.push b) = .ok after ↔
          ∃ bs, rest.mapM f = .ok bs ∧ after = before.push b ++ bs.toArray := ih
      refine hrest.trans ⟨?_, ?_⟩
      · rintro ⟨bs, hbs, rfl⟩
        exact ⟨b :: bs, bind_eq_ok.2 ⟨b, rfl, bind_eq_ok.2 ⟨bs, hbs, rfl⟩⟩, by simp⟩
      · rintro ⟨_, h, rfl⟩
        obtain ⟨_, ⟨⟩, h⟩ := bind_eq_ok.1 h
        obtain ⟨bs, hbs, ⟨⟩⟩ := bind_eq_ok.1 h
        exact ⟨bs, hbs, by simp⟩

/-- What every step keeps up holds at the end of a run that succeeds. -/
theorem foldlM_invariant {f : σ → α → Except ε σ} {P : σ → Prop} {l : List α}
    (hstep : ∀ a ∈ l, ∀ s t, P s → f s a = .ok t → P t) {s t : σ} (hs : P s)
    (h : l.foldlM f s = .ok t) : P t := by
  induction l generalizing s with
  | nil =>
    cases h
    exact hs
  | cons a rest ih =>
    obtain ⟨u, hu, hrest⟩ := bind_eq_ok.1 h
    exact ih (fun b hb => hstep b (List.mem_cons_of_mem _ hb))
      (hstep a List.mem_cons_self s u hs hu) hrest

end Plexus
