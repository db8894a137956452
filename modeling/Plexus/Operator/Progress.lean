import Plexus.Query.Row

/-!
# Progress of machines

Most machines hold rows that they have worked out and not yet given, and an input to go on with
once these are gone. `Progress` orders such states: what is left of the input counts first, with
a finished input ahead of all others, and then the number of waiting rows. The order inherits
well-foundedness and transitivity from the order on inputs.
-/

namespace Plexus

variable {σ : Type}

/-- A finished input is ahead of every other; otherwise the inputs' own order counts. -/
inductive FurtherIn (R : σ → σ → Prop) : Option σ → Option σ → Prop where
  | finished {s : σ} : FurtherIn R none (some s)
  | further {s t : σ} : R s t → FurtherIn R (some s) (some t)

namespace FurtherIn

variable {R : σ → σ → Prop}

/-- Going further in an input that can end is as well-founded as going further in it while it
lasts. -/
theorem wf (h : WellFounded R) : WellFounded (FurtherIn R) := by
  have hnone : Acc (FurtherIn R) none := ⟨_, fun _ hy => nomatch hy⟩
  refine ⟨fun o => ?_⟩
  cases o with
  | none => exact hnone
  | some s =>
    induction h.apply s with
    | intro s _ ih =>
      refine ⟨_, fun y hy => ?_⟩
      cases hy with
      | finished => exact hnone
      | further hr => exact ih _ hr

theorem trans (h : ∀ s t u, R s t → R t u → R s u) {a b c : Option σ}
    (hab : FurtherIn R a b) (hbc : FurtherIn R b c) : FurtherIn R a c := by
  cases hbc with
  | finished => cases hab
  | further hr =>
    cases hab with
    | finished => exact .finished
    | further hq => exact .further (h _ _ _ hq hr)

end FurtherIn

/-- The state of the input, absent once it is finished, and the rows that wait to be given. -/
structure Stock (σ : Type) where
  input : Option σ
  waiting : List Row

/-- The input is further on, or it is the same and fewer rows wait. -/
inductive Progress (R : σ → σ → Prop) : Stock σ → Stock σ → Prop where
  | input {a b : Option σ} {xs ys : List Row} : FurtherIn R a b → Progress R ⟨a, xs⟩ ⟨b, ys⟩
  | waiting {a : Option σ} {xs ys : List Row} : xs.length < ys.length → Progress R ⟨a, xs⟩ ⟨a, ys⟩

namespace Progress

variable {R : σ → σ → Prop}

/-- Using up a stock of rows is well-founded if going further in what fills it is. -/
theorem wf (h : WellFounded R) : WellFounded (Progress R) := by
  refine ⟨fun ⟨o, xs⟩ => ?_⟩
  induction (FurtherIn.wf h).apply o generalizing xs with
  | intro o _ ih =>
    generalize hn : xs.length = n
    induction n using Nat.strongRecOn generalizing xs with
    | ind n ihn =>
      refine ⟨_, fun y hy => ?_⟩
      cases hy with
      | input hi => exact ih _ hi _
      | waiting hl => exact ihn _ (hn ▸ hl) _ rfl

theorem trans (h : ∀ s t u, R s t → R t u → R s u) {a b c : Stock σ}
    (hab : Progress R a b) (hbc : Progress R b c) : Progress R a c := by
  cases hbc with
  | input hi =>
    cases hab with
    | input hj => exact .input (FurtherIn.trans h hj hi)
    | waiting _ => exact .input hi
  | waiting hl =>
    cases hab with
    | input hj => exact .input hj
    | waiting hm => exact .waiting (Nat.lt_trans hm hl)

/-- Giving the first waiting row is progress. -/
theorem give (a : Option σ) (r : Row) (rows : List Row) : Progress R ⟨a, rows⟩ ⟨a, r :: rows⟩ :=
  .waiting (Nat.lt_succ_self _)

end Progress

end Plexus
