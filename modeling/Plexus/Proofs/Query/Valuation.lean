import Plexus.Proofs.Catalog
import Plexus.Proofs.Operator.Gives
import Plexus.Proofs.Outcome
import Plexus.Proofs.Query.Row

/-!
# Valuations

A row stands for the valuation of its variables; in which order they were bound does not matter to
an expression. A list of rows lists a set of valuations if it has every one of them exactly once.
Operators are understood by the sets of valuations that their rows list.
-/

namespace Plexus

/-- What the variables stand for; none for those that are not bound. -/
abbrev Valuation := String → Option Value

namespace Expression

variable {g : Graph} {r s : Row}

mutual

/-- An expression has the same value on rows that agree on the variables that it reads. -/
theorem evaluate_congr (e : Expression) (h : ∀ x ∈ e.occurrences, r.get? x = s.get? x) :
    e.evaluate g r = e.evaluate g s := by
  cases e with
  | ref name =>
    have hname := h name (by simp [occurrences])
    simp only [evaluate, lookup, hname]
  | property name key =>
    have hname := h name (by simp [occurrences])
    simp only [evaluate, lookup, hname]
  | literal value => rfl
  | hasLabels name labels =>
    have hname := h name (by simp [occurrences])
    simp only [evaluate, lookup, hname]
  | binary op left right =>
    have hleft := evaluate_congr left fun x hx => h x (by simp [occurrences, hx])
    have hright := evaluate_congr right fun x hx => h x (by simp [occurrences, hx])
    cases op <;> simp only [evaluate, hleft, hright]
  | unary op operand =>
    have hoperand := evaluate_congr operand fun x hx => h x (by simpa [occurrences] using hx)
    cases op <;> simp only [evaluate, hoperand]
  | call function arguments =>
    have hcall := evaluateCall_congr function arguments
      fun x hx => h x (by simpa [occurrences] using hx)
    simp only [evaluate, hcall]

private theorem evaluateCall_congr (function : String) (arguments : List Expression)
    (h : ∀ x ∈ occurrencesAll arguments, r.get? x = s.get? x) :
    evaluateCall g r function arguments = evaluateCall g s function arguments := by
  cases arguments with
  | nil => rfl
  | cons e rest =>
    have hfirst := evaluate_congr e fun x hx => h x (by simp [occurrencesAll, hx])
    cases rest with
    | nil => simp only [evaluateCall, hfirst]
    | cons f rest => rfl

end

theorem mem_reads {e : Expression} {x : String} : x ∈ e.reads ↔ x ∈ e.occurrences :=
  List.mem_eraseDups

/-- An expression is true on a valuation. -/
def Holds (g : Graph) (e : Expression) (ν : Valuation) : Prop :=
  ∃ r : Row, (∀ x ∈ e.reads, r.get? x = ν x) ∧ e.evaluate g r = .ok (.boolean true)

variable {e : Expression} {ν μ : Valuation}

/-- Any row that agrees with the valuation decides whether an expression is true on it. -/
theorem holds_iff (h : ∀ x ∈ e.reads, r.get? x = ν x) :
    e.Holds g ν ↔ e.evaluate g r = .ok (.boolean true) := by
  constructor
  · rintro ⟨s, hs, htrue⟩
    have hsame : e.evaluate g r = e.evaluate g s := by
      apply evaluate_congr
      intro x hx
      exact (h x (mem_reads.2 hx)).trans (hs x (mem_reads.2 hx)).symm
    rw [hsame]
    exact htrue
  · exact fun htrue => ⟨r, h, htrue⟩

/-- A condition holds of what a row binds if it evaluates to true on the row. -/
theorem holds_get? : e.Holds g r.get? ↔ e.evaluate g r = .ok (.boolean true) :=
  holds_iff fun _ _ => rfl

/-- Whether an expression is true depends on the variables that it reads. -/
theorem holds_congr (h : ∀ x ∈ e.reads, ν x = μ x) : e.Holds g ν ↔ e.Holds g μ :=
  exists_congr fun _ => and_congr_left fun _ => forall₂_congr fun x hx => by rw [h x hx]

private theorem truth_eq_true {v : Value} (context : String) :
    v.truth context = .ok (some true) ↔ v = .boolean true := by
  cases v with
  | node id => simp [Value.truth, Value.boolean]
  | edge id => simp [Value.truth, Value.boolean]
  | scalar a => cases a <;> simp [Value.truth, Value.boolean]

private theorem and_eq_true {a b : Truth} :
    (Truth.and a b).toValue = .boolean true ↔ a = some true ∧ b = some true := by
  rcases a with _ | _ | _ <;> rcases b with _ | _ | _ <;>
    simp [Truth.and, Truth.toValue, Value.boolean, Value.null]

/-- A conjunction is true if both sides are. -/
theorem evaluate_and {left right : Expression} :
    (binary .and left right).evaluate g r = .ok (.boolean true) ↔
      left.evaluate g r = .ok (.boolean true) ∧ right.evaluate g r = .ok (.boolean true) := by
  rw [evaluate]
  constructor
  · intro h
    obtain ⟨v, hv, h⟩ := bind_eq_ok.1 h
    obtain ⟨l, hl, h⟩ := bind_eq_ok.1 h
    split at h
    · cases h
    · obtain ⟨w, hw, h⟩ := bind_eq_ok.1 h
      obtain ⟨m, hm, h⟩ := bind_eq_ok.1 h
      have hboth : (Truth.and l m).toValue = .boolean true := Except.ok.inj h
      obtain ⟨rfl, rfl⟩ := and_eq_true.1 hboth
      rw [truth_eq_true "AND"] at hl hm
      rw [hv, hw, hl, hm]
      exact ⟨rfl, rfl⟩
  · rintro ⟨hleft, hright⟩
    rw [hleft, hright]
    rfl

/-- A condition that can be decided lets a row pass if it is true there. -/
theorem isMatch_eq_ok {b : Bool} (h : e.isMatch g r = .ok b) :
    b = true ↔ e.evaluate g r = .ok (.boolean true) := by
  obtain ⟨v, hv, h⟩ := bind_eq_ok.1 h
  obtain ⟨t, ht, h⟩ := bind_eq_ok.1 h
  cases h
  have hsome : t.getD false = true ↔ t = some true := by rcases t with _ | _ | _ <;> simp
  rw [hsome, hv, Except.ok.injEq, ← truth_eq_true "WHERE", ht, Except.ok.injEq]

/-- A condition lets a row pass exactly if it is true there. -/
theorem isMatch_eq_true : e.isMatch g r = .ok true ↔ e.evaluate g r = .ok (.boolean true) := by
  refine ⟨fun h => (isMatch_eq_ok h).1 rfl, fun h => ?_⟩
  rw [isMatch, h]
  rfl

/-- Only no expressions have no conjunction. -/
theorem conjunction?_eq_none {es : List Expression} : conjunction? es = none ↔ es = [] := by
  cases es <;> simp [conjunction?]

/-- The conjunction of some expressions is true if all of them are. -/
theorem evaluate_conjunction? {es : List Expression} {c : Expression}
    (h : conjunction? es = some c) :
    c.evaluate g r = .ok (.boolean true) ↔ ∀ e ∈ es, e.evaluate g r = .ok (.boolean true) := by
  have hfold (first : Expression) (rest : List Expression) :
      (rest.foldl (binary .and) first).evaluate g r = .ok (.boolean true) ↔
        first.evaluate g r = .ok (.boolean true) ∧
          ∀ e ∈ rest, e.evaluate g r = .ok (.boolean true) := by
    induction rest generalizing first with
    | nil => simp
    | cons e rest ih => rw [List.foldl_cons, ih, evaluate_and, List.forall_mem_cons, and_assoc]
  cases es with
  | nil => cases h
  | cons first rest =>
    cases h
    rw [hfold, List.forall_mem_cons]

end Expression

namespace Valuation

/-- Exactly these variables are bound. -/
def Binds (ν : Valuation) (names : List String) : Prop := ∀ x, (ν x).isSome ↔ x ∈ names

/-- The valuation of some of the variables. -/
def only (ν : Valuation) (names : List String) : Valuation :=
  fun x => if x ∈ names then ν x else none

variable {ν μ : Valuation} {names more : List String}

theorem only_of_mem {x : String} (h : x ∈ names) : ν.only names x = ν x := if_pos h

/-- Cut down to names that it binds, a valuation binds exactly these. -/
theorem Binds.only (h : ν.Binds more) (hsub : ∀ x ∈ names, x ∈ more) :
    (ν.only names).Binds names := by
  intro x
  by_cases hx : x ∈ names
  · rw [only_of_mem hx]
    exact ⟨fun _ => hx, fun _ => (h x).2 (hsub x hx)⟩
  · simp [Valuation.only, hx]

/-- Valuations of the same variables are equal if they agree on these. -/
theorem Binds.ext (h : ν.Binds names) (h' : μ.Binds names) (hsame : ∀ x ∈ names, ν x = μ x) :
    ν = μ := by
  funext x
  by_cases hx : x ∈ names
  · exact hsame x hx
  · have hν : ν x = none := by rw [← Option.not_isSome_iff_eq_none, h x]; exact hx
    have hμ : μ x = none := by rw [← Option.not_isSome_iff_eq_none, h' x]; exact hx
    rw [hν, hμ]

end Valuation

/-- Whether the condition is met depends on these variables at most. -/
def DependsOn (names : List String) (C : Valuation → Prop) : Prop :=
  ∀ ν μ : Valuation, (∀ x ∈ names, ν x = μ x) → (C ν ↔ C μ)

/-- The rows stand for exactly the valuations of some variables that meet a condition, each once. -/
structure Lists (rows : List Row) (names : List String) (C : Valuation → Prop) : Prop where
  proper : ∀ r ∈ rows, r.Proper
  nodup : (rows.map Row.get?).Nodup
  mem (ν : Valuation) : ν ∈ rows.map Row.get? ↔ ν.Binds names ∧ C ν

namespace Lists

variable {ins out : List Row} {names more : List String} {C D : Valuation → Prop}

/-- A row of a list of valuations binds the listed names. -/
theorem binds (h : Lists ins names C) {r : Row} (hr : r ∈ ins) :
    Valuation.Binds r.get? names :=
  ((h.mem _).1 (List.mem_map_of_mem hr)).1

/-- A row of a list of valuations is as the listed ones should be. -/
theorem holds (h : Lists ins names C) {r : Row} (hr : r ∈ ins) : C r.get? :=
  ((h.mem _).1 (List.mem_map_of_mem hr)).2

/-- What is listed may be said with equal names and an equivalent condition. -/
theorem congr (h : Lists ins names C) (hnames : ∀ x, x ∈ names ↔ x ∈ more)
    (hC : ∀ ν, ν.Binds names → (C ν ↔ D ν)) : Lists ins more D where
  proper := h.proper
  nodup := h.nodup
  mem ν := by
    have hbinds : ν.Binds names ↔ ν.Binds more := by simp only [Valuation.Binds, hnames]
    rw [h.mem, ← hbinds]
    exact and_congr_right fun hν => hC ν hν

private theorem spread_rows {F : Row → List Row → Prop} (hspreads : Spreads F ins out)
    (hnodup : (ins.map Row.get?).Nodup) (hbinds : ∀ r ∈ ins, Valuation.Binds r.get? names)
    (hF : ∀ r ∈ ins, ∀ o, F r o → Lists o more fun ν => (∀ x ∈ names, ν x = r.get? x) ∧ D ν) :
    Lists out more fun ν => ∃ r ∈ ins, (∀ x ∈ names, ν x = r.get? x) ∧ D ν := by
  induction hspreads with
  | nil => exact ⟨by simp, by simp, by simp⟩
  | cons hr _ ih =>
    rename_i r o rest outs _
    rw [List.map_cons, List.nodup_cons] at hnodup
    rw [List.forall_mem_cons] at hbinds hF
    have hone := hF.1 o hr
    have hmore := ih hnodup.2 hbinds.2 hF.2
    refine ⟨fun s hs => (List.mem_append.1 hs).elim (hone.proper s) (hmore.proper s), ?_,
      fun ν => ?_⟩
    · rw [List.map_append, List.nodup_append]
      refine ⟨hone.nodup, hmore.nodup, ?_⟩
      rintro ν hν _ hν' rfl
      obtain ⟨-, r', hr', hsame', -⟩ := (hmore.mem ν).1 hν'
      obtain ⟨-, hsame, -⟩ := (hone.mem ν).1 hν
      -- both rows are the part of the valuation that their variables make up
      have heq : r.get? = r'.get? := hbinds.1.ext (hbinds.2 r' hr') fun x hx =>
        (hsame x hx).symm.trans (hsame' x hx)
      exact hnodup.1 (heq ▸ List.mem_map_of_mem hr')
    · rw [List.map_append, List.mem_append, hone.mem, hmore.mem, ← and_or_left]
      simp only [List.mem_cons, exists_eq_or_imp]

/-- Rows that are spread list the extensions of the valuations that they stand for, if each row is
replaced by the rows of its own extensions. -/
theorem spread {F : Row → List Row → Prop} (h : Lists ins names C) (hC : DependsOn names C)
    (hsub : ∀ x ∈ names, x ∈ more) (hspreads : Spreads F ins out)
    (hF : ∀ r ∈ ins, ∀ o, F r o → Lists o more fun ν => (∀ x ∈ names, ν x = r.get? x) ∧ D ν) :
    Lists out more fun ν => C ν ∧ D ν := by
  apply (spread_rows hspreads h.nodup (fun r => h.binds) hF).congr (fun x => Iff.rfl)
  intro ν hbinds
  constructor
  · rintro ⟨r, hr, hsame, hD⟩
    exact ⟨(hC ν r.get? hsame).2 (h.holds hr), hD⟩
  · rintro ⟨hCν, hD⟩
    have hsame : ∀ x ∈ names, ν.only names x = ν x := fun x => Valuation.only_of_mem
    have hlisted : ν.only names ∈ ins.map Row.get? :=
      (h.mem _).2 ⟨hbinds.only hsub, (hC _ _ hsame).2 hCν⟩
    obtain ⟨r, hr, heq⟩ := List.mem_map.1 hlisted
    exact ⟨r, hr, fun x hx => by rw [heq, hsame x hx], hD⟩

/-- No rows list the valuations of a condition that cannot be met. -/
theorem nil (h : ∀ ν : Valuation, ν.Binds names → ¬C ν) : Lists [] names C where
  proper := List.forall_mem_nil _
  nodup := List.nodup_nil
  mem ν := by
    rw [List.map_nil]
    exact iff_of_false (List.not_mem_nil) fun hν => h ν hν.1 hν.2

/-- A filter by some conditions lists the valuations on which these are true as well. -/
theorem filter {g : Graph} {es : List Expression} {c : Expression} (h : Lists ins names C)
    (hC : DependsOn names C) (hc : Expression.conjunction? es = some c)
    (hspreads : Spreads (fun r o => ∃ b, c.isMatch g r = .ok b ∧
      o = if b then [r] else []) ins out) :
    Lists out names fun ν => C ν ∧ ∀ e ∈ es, e.Holds g ν := by
  refine h.spread hC (fun x hx => hx) hspreads ?_
  rintro r hr _ ⟨b, hmatch, rfl⟩
  have hb : b = true ↔ ∀ e ∈ es, e.Holds g r.get? := by
    rw [Expression.isMatch_eq_ok hmatch, Expression.evaluate_conjunction? hc]
    simp only [Expression.holds_get?]
  refine ⟨?_, ?_, fun ν => ?_⟩
  · cases b <;> simp [h.proper r hr]
  · cases b <;> simp
  · have hlist : ν ∈ (if b = true then [r] else []).map Row.get? ↔ b = true ∧ ν = r.get? := by
      cases b <;> simp
    rw [hlist, hb]
    constructor
    · rintro ⟨hall, rfl⟩
      exact ⟨h.binds hr, fun x _ => rfl, hall⟩
    · rintro ⟨hbinds, hsame, hall⟩
      have heq : ν = r.get? := hbinds.ext (h.binds hr) hsame
      exact ⟨heq ▸ hall, heq⟩

/-- A product of rows without common variables lists the valuations that meet both conditions. -/
theorem product {rights : List Row} (h : Lists ins names C) (h' : Lists rights more D)
    (hC : DependsOn names C) (hD : DependsOn more D) (hdisjoint : ∀ x ∈ names, x ∉ more) :
    Lists (ins.flatMap fun l => rights.map l.merge) (names ++ more) fun ν => C ν ∧ D ν := by
  refine h.spread hC (fun x hx => List.mem_append_left _ hx) (.flatMap _ _) ?_
  rintro l hl _ rfl
  have hget {r : Row} (hr : r ∈ rights) (x : String) :
      (l.merge r).get? x = (r.get? x).or (l.get? x) := Row.get?_merge l (h'.proper r hr) x
  have hright {r : Row} (hr : r ∈ rights) : ∀ x ∈ more, (l.merge r).get? x = r.get? x := by
    intro x hx
    obtain ⟨v, hv⟩ := Option.isSome_iff_exists.1 ((h'.binds hr x).2 hx)
    rw [hget hr, hv]
    rfl
  have hleft {r : Row} (hr : r ∈ rights) : ∀ x ∉ more, (l.merge r).get? x = l.get? x := by
    intro x hx
    have hnone : r.get? x = none := by
      rw [← Option.not_isSome_iff_eq_none, h'.binds hr x]
      exact hx
    rw [hget hr, hnone]
    rfl
  have hbinds {r : Row} (hr : r ∈ rights) :
      Valuation.Binds (l.merge r).get? (names ++ more) := by
    intro x
    rw [hget hr, Option.isSome_or, Bool.or_eq_true, h.binds hl, h'.binds hr, List.mem_append,
      or_comm]
  refine ⟨fun s hs => ?_, ?_, fun ν => ?_⟩
  · obtain ⟨r, -, rfl⟩ := List.mem_map.1 hs
    exact (h.proper l hl).merge r
  · have hpairs := h'.nodup
    rw [List.Nodup, List.pairwise_map] at hpairs
    rw [List.map_map, List.Nodup, List.pairwise_map]
    refine hpairs.imp_of_mem fun {r s} hr hs hne heq => hne ?_
    apply (h'.binds hr).ext (h'.binds hs)
    intro x hx
    rw [← hright hr x hx, ← hright hs x hx]
    exact congrFun heq x
  · rw [List.map_map, List.mem_map]
    constructor
    · rintro ⟨r, hr, rfl⟩
      refine ⟨hbinds hr, fun x hx => hleft hr x (hdisjoint x hx), ?_⟩
      exact (hD _ _ (hright hr)).2 (h'.holds hr)
    · rintro ⟨hν, hsame, hDν⟩
      have hagree : ∀ x ∈ more, ν.only more x = ν x := fun x => Valuation.only_of_mem
      have hlisted : ν.only more ∈ rights.map Row.get? :=
        (h'.mem _).2 ⟨hν.only fun x hx => List.mem_append_right _ hx, (hD _ _ hagree).2 hDν⟩
      obtain ⟨r, hr, heq⟩ := List.mem_map.1 hlisted
      refine ⟨r, hr, (hbinds hr).ext hν fun x hx => ?_⟩
      by_cases hm : x ∈ more
      · rw [hright hr x hm, heq, hagree x hm]
      · have hn : x ∈ names := (List.mem_append.1 hx).resolve_right hm
        rw [hleft hr x hm, hsame x hn]

end Lists

end Plexus
