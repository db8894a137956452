import Plexus.Proofs.Query.Valuation

/-!
# Variables that are not bound

What an expression gives on a row, a value or a fault, depends on the variables that it reads and on
nothing else of the row. If it fails for want of a variable, then it reads this variable, and the
row does not bind it. So the variables that are read off an expression are all that matters to where
it can be evaluated.
-/

namespace Plexus

/-- If a computation on the row fails for want of a variable, it is one of these, and the row does
not bind it. -/
def MissesOnly {α : Type} (r : Row) (names : List String) (x : Except QueryFault α) : Prop :=
  ∀ name, x = .error (.unbound name) → name ∈ names ∧ r.get? name = none

namespace MissesOnly

variable {α β : Type} {r : Row} {names more : List String} {x : Except QueryFault α}

/-- A result misses no variable. -/
theorem ok (a : α) : MissesOnly r names (.ok a) := nofun

/-- A computation that misses none but some variables misses none but any that include them. -/
theorem mono (h : MissesOnly r names x) (hsub : ∀ name ∈ names, name ∈ more) :
    MissesOnly r more x :=
  fun name hx => (h name hx).imp_left (hsub name)

/-- A computation and its continuation together miss what either may miss. -/
theorem bind {f : α → Except QueryFault β} (h : MissesOnly r names x)
    (hf : ∀ a, MissesOnly r names (f a)) : MissesOnly r names (x >>= f) := by
  intro name hname
  cases x with
  | error fault =>
    cases hname
    exact h name rfl
  | ok a => exact hf a name hname

end MissesOnly

namespace Expression

variable {g : Graph} {r : Row} {names : List String}

private theorem misses_liftGraph {α : Type} (x : Except GraphFault α) :
    MissesOnly r names (liftGraph x) := by
  cases x <;> exact nofun

private theorem misses_readProperty (v : Value) (key : String) :
    MissesOnly r names (readProperty g v key) := by
  cases v with
  | node id | edge id => exact (misses_liftGraph _).bind fun _ => .ok _
  | scalar s => cases s <;> exact nofun

private theorem misses_readLabels (v : Value) (labels : List String) :
    MissesOnly r names (readLabels g v labels) := by
  cases v with
  | node id => exact (misses_liftGraph _).bind fun _ => .ok _
  | edge id => exact nofun
  | scalar s => cases s <;> exact nofun

private theorem misses_callOn (function : String) (v : Value) :
    MissesOnly r names (callOn g function v) := by
  unfold callOn
  cases v with
  | node id =>
    dsimp only
    split_ifs <;> exact nofun
  | edge id =>
    dsimp only
    split_ifs
    · exact nofun
    · exact (misses_liftGraph _).bind fun _ => .ok _
    · exact nofun
  | scalar s =>
    cases s with
    | null => exact nofun
    | _ =>
      dsimp only
      split_ifs <;> exact nofun

private theorem misses_truth (v : Value) (context : String) :
    MissesOnly r names (v.truth context) := by
  unfold Value.truth
  split <;> exact nofun

private theorem misses_lookup (name : String) : MissesOnly r [name] (lookup r name) := by
  intro x hx
  unfold lookup at hx
  split at hx
  · cases hx
  · rename_i hnone
    cases hx
    exact ⟨List.mem_singleton_self _, hnone⟩

/-- Of the variables that an expression reads it can miss those that are not bound. -/
theorem misses_evaluate (e : Expression) : MissesOnly r e.occurrences (e.evaluate g r) := by
  cases e with
  | ref name =>
    rw [evaluate, occurrences]
    exact misses_lookup name
  | property name key =>
    rw [evaluate, occurrences]
    exact (misses_lookup name).bind fun v => misses_readProperty v key
  | literal value =>
    rw [evaluate]
    exact .ok _
  | hasLabels name labels =>
    rw [evaluate, occurrences]
    exact (misses_lookup name).bind fun v => misses_readLabels v labels
  | binary op left right =>
    rw [occurrences]
    have hleft : MissesOnly r (left.occurrences ++ right.occurrences) (left.evaluate g r) :=
      (misses_evaluate left).mono fun x => List.mem_append_left _
    have hright : MissesOnly r (left.occurrences ++ right.occurrences) (right.evaluate g r) :=
      (misses_evaluate right).mono fun x => List.mem_append_right _
    cases op with
    | and | or =>
      rw [evaluate]
      refine hleft.bind fun v => (misses_truth v _).bind fun l => ?_
      -- a left operand that decides hides what the right one misses
      split
      · exact .ok _
      · exact hright.bind fun w => (misses_truth w _).bind fun _ => .ok _
    | _ =>
      rw [evaluate]
      · exact hleft.bind fun v => hright.bind fun w => .ok _
      all_goals
        intro heq
        cases heq
  | unary op operand =>
    rw [occurrences]
    have hoperand := misses_evaluate operand
    cases op with
    | not =>
      rw [evaluate]
      exact hoperand.bind fun v => (misses_truth v _).bind fun _ => .ok _
    | isNull | isNotNull =>
      rw [evaluate]
      exact hoperand.bind fun v => .ok _
  | call function arguments =>
    rw [evaluate, occurrences]
    match arguments with
    | [] | _ :: _ :: _ => exact nofun
    | [argument] =>
      rw [evaluateCall, occurrencesAll, occurrencesAll, List.append_nil]
      exact (misses_evaluate argument).bind fun v => misses_callOn function v

/-- An expression gives the same value or the same fault on rows that agree on the variables that it
reads, and it fails for want of a variable only if it reads it and the row does not bind it. -/
theorem evaluate_by_reads (g : Graph) (e : Expression) :
    (∀ r s : Row, (∀ x ∈ e.reads, r.get? x = s.get? x) → e.evaluate g r = e.evaluate g s) ∧
      ∀ (r : Row) (x : String), e.evaluate g r = .error (.unbound x) →
        x ∈ e.reads ∧ r.get? x = none := by
  constructor
  · intro r s hsame
    exact e.evaluate_congr fun x hx => hsame x (mem_reads.2 hx)
  · intro r x hunbound
    rw [mem_reads]
    exact e.misses_evaluate x hunbound

/-- Two rows agree that the first operand is false and leave the variable of the second one out;
what else the second row binds does not matter. -/
theorem evaluate_by_reads_of_missing :
    let e : Expression := .binary .or (.ref "a") (.binary .eq (.call "id" [.ref "b"]) (.ref "a"))
    let r : Row := ⟨[("a", .boolean false)]⟩
    let s : Row := ⟨[("c", .null), ("a", .boolean false)]⟩
    (∀ x ∈ e.reads, r.get? x = s.get? x) ∧
      e.evaluate (.empty {}) r = e.evaluate (.empty {}) s ∧
        e.evaluate (.empty {}) r = .error (.unbound "b") ∧ "b" ∈ e.reads ∧ r.get? "b" = none := by
  intro e r s
  have hsame : ∀ x ∈ e.reads, r.get? x = s.get? x := by decide
  have hunbound : e.evaluate (.empty {}) r = .error (.unbound "b") := by rfl
  have hreads := evaluate_by_reads (.empty {}) e
  exact ⟨hsame, hreads.1 r s hsame, hunbound, hreads.2 r "b" hunbound⟩

end Expression

end Plexus
