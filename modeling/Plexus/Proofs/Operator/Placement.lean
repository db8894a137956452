import Plexus.Plan.Entry
import Plexus.Proofs.Operator.Address

/-!
# Conditions in their places

What a query asks for is spread over a tree: an index takes care of some conditions, and filters
test the others. Each condition should be in one place, and a filter should test it as soon as its
variables are bound, before further rows are made of those that it does not let through. Trees are
built from below, so it is enough to see what every operator that is put on top does to the places
of the conditions below it.
-/

namespace Plexus

namespace Operator

/-- The operator at an address binds some names. -/
def BindsAt (tree : Operator) (a : Address) (names : List String) : Prop :=
  ∃ op, tree.at? a = some op ∧ names ⊆ op.bindings

/-- The operators in a tree bind these names at most. -/
def Within (tree : Operator) (bound : List String) : Prop :=
  ∀ a names, tree.BindsAt a names → names ⊆ bound

/-- The operator at an address is the lowest one that binds some names: only those above it bind
them as well. If there are none to bind it is the leftmost leaf, which is for a given variable. -/
structure Lowest (tree : Operator) (first : String) (names : List String) (a : Address) :
    Prop where
  binds : tree.BindsAt a names
  above : names ≠ [] → ∀ b, tree.BindsAt b names → b <+: a
  leftmost : names = [] → (∀ i ∈ a, i = 0) ∧
    ∃ access text, tree.at? a = some (.scan access first text)

/-- The operator at the address of a condition is a leaf for an index on a property, and the
condition says that this property of the variable of the leaf equals the literal looked up. -/
def LooksUp (g : Graph) (tree : Operator) (p : Placed) : Prop :=
  ∃ label property value x text key,
    tree.at? p.address = some (.scan (.index label property value) x text) ∧
      g.schema.propertyId? key = some property ∧ p.condition.equalityOn? x = some (key, value)

/-- Where a tree takes care of some conjuncts, and of what descriptors ask for. -/
structure Uses (g : Graph) (tree : Operator) (first : String) (conjuncts asks : List Expression)
    (looked tested asked : List Placed) : Prop where
  /-- Every conjunct is looked up or tested, as often as it occurs. -/
  once : ((looked ++ tested).map Placed.condition).Perm conjuncts
  looks : ∀ p ∈ looked, tree.LooksUp g p
  /-- No leaf looks up two conjuncts. -/
  apart : (looked.map Placed.address).Nodup
  /-- The filters test nothing else, and nothing twice. -/
  tests : tree.tests.Perm (tested ++ asked)
  /-- A conjunct is tested directly above the lowest operator that binds what it reads. -/
  lowest : ∀ p ∈ tested, tree.Lowest first p.condition.reads (p.address ++ [0])
  asks : (asked.map Placed.condition).Perm asks

/-- A tree takes care of each of some conjuncts in one place, and of what descriptors ask for. What
reads nothing is tested on its leftmost leaf, which is for a given variable. -/
def UsesOnce (g : Graph) (tree : Operator) (first : String) (conjuncts asks : List Expression) :
    Prop :=
  ∃ looked tested asked, tree.Uses g first conjuncts asks looked tested asked

variable {g : Graph} {tree op input left right : Operator} {a b : Address} {i : Nat}
  {first second : String} {names : List String} {conjuncts conjuncts' asks asks' : List Expression}

theorem bindsAt_nil : tree.BindsAt [] names ↔ names ⊆ tree.bindings := by
  simp [BindsAt, at?]

/-- At an input names are bound if that input binds them there. -/
theorem bindsAt_cons : tree.BindsAt (i :: a) names ↔
    ∃ input, tree.inputs[i]? = some input ∧ input.BindsAt a names := by
  simp only [BindsAt, at?_cons, Option.bind_eq_some_iff]
  constructor
  · rintro ⟨op, ⟨input, hinput, hop⟩, hnames⟩
    exact ⟨input, hinput, op, hop, hnames⟩
  · rintro ⟨input, hinput, op, hop, hnames⟩
    exact ⟨op, ⟨input, hinput, hop⟩, hnames⟩

/-- A tree stays within some names if its root binds no others and its inputs stay within them. -/
theorem within_iff {bound : List String} : op.Within bound ↔
    op.bindings ⊆ bound ∧ ∀ input ∈ op.inputs, input.Within bound := by
  constructor
  · intro h
    refine ⟨h [] _ (bindsAt_nil.2 fun x hx => hx), fun input hinput a names hnames => ?_⟩
    obtain ⟨i, hi⟩ := List.mem_iff_getElem?.1 hinput
    exact h (i :: a) names (bindsAt_cons.2 ⟨input, hi, hnames⟩)
  · rintro ⟨hroot, hinputs⟩ a names hnames
    cases a with
    | nil => exact List.Subset.trans (bindsAt_nil.1 hnames) hroot
    | cons i rest =>
      obtain ⟨input, hi, hrest⟩ := bindsAt_cons.1 hnames
      exact hinputs input (List.mem_of_getElem? hi) rest names hrest

/-- A tree that stays within some names stays within more. -/
theorem Within.mono {bound bound' : List String} (h : tree.Within bound) (hsub : bound ⊆ bound') :
    tree.Within bound' :=
  fun a names hnames => List.Subset.trans (h a names hnames) hsub

/-- An operator is the lowest one that binds some names if none below it does. -/
theorem lowest_nil (hnames : names ⊆ op.bindings) (hne : names ≠ [])
    (hinputs : ∀ input ∈ op.inputs, ∀ a, ¬input.BindsAt a names) :
    op.Lowest first names [] where
  binds := bindsAt_nil.2 hnames
  above := by
    intro _ b hb
    cases b with
    | nil => exact List.nil_prefix
    | cons i rest =>
      obtain ⟨input, hinput, hrest⟩ := bindsAt_cons.1 hb
      exact absurd hrest (hinputs input (List.mem_of_getElem? hinput) rest)
  leftmost hnil := absurd hnil hne

/-- A leaf that binds all the names is the lowest operator to do so. -/
theorem lowest_scan {access : Access} {text : String} (hnames : names ⊆ [first]) :
    (scan access first text).Lowest first names [] where
  binds := bindsAt_nil.2 hnames
  above := by
    intro _ b hb
    cases b with
    | nil => exact List.nil_prefix
    | cons i rest =>
      obtain ⟨input, hinput, -⟩ := bindsAt_cons.1 hb
      cases hinput
  leftmost _ := ⟨List.forall_mem_nil _, access, text, rfl⟩

/-- The lowest operator that binds some names remains it if no other input binds them. -/
theorem Lowest.below (h : input.Lowest second names a) (hinput : op.inputs[i]? = some input)
    (hothers : names ≠ [] → ∀ j other, op.inputs[j]? = some other → ∀ b,
      other.BindsAt b names → j = i)
    (hleft : names = [] → i = 0 ∧ second = first) : op.Lowest first names (i :: a) where
  binds := bindsAt_cons.2 ⟨input, hinput, h.binds⟩
  above := by
    intro hne b hb
    cases b with
    | nil => exact List.nil_prefix
    | cons j rest =>
      obtain ⟨other, hother, hrest⟩ := bindsAt_cons.1 hb
      obtain rfl := hothers hne j other hother rest hrest
      obtain rfl : other = input := Option.some.inj (hother.symm.trans hinput)
      exact (List.prefix_append_right_inj [j]).2 (h.above hne rest hrest)
  leftmost hnil := by
    obtain ⟨hzero, access, text, hscan⟩ := h.leftmost hnil
    obtain ⟨hi, rfl⟩ := hleft hnil
    refine ⟨List.forall_mem_cons.2 ⟨hi, hzero⟩, access, text, ?_⟩
    rw [at?_cons, hinput]
    exact hscan

/-- Above an only input the lowest operator to bind the names stays where it is. -/
theorem Lowest.below_only (h : input.Lowest first names a) (hinputs : op.inputs = [input]) :
    op.Lowest first names (0 :: a) := by
  refine h.below (by rw [hinputs]; rfl) (fun _ j other hother _ _ => ?_) fun _ => ⟨rfl, rfl⟩
  rw [hinputs] at hother
  cases j with
  | zero => rfl
  | succ j => cases hother

/-- What a leaf looks up in an input is looked up in the tree. -/
theorem LooksUp.below {p : Placed} (h : input.LooksUp g p) (hinput : op.inputs[i]? = some input) :
    op.LooksUp g (p.below i) := by
  obtain ⟨label, property, value, x, text, key, hscan, hlooks⟩ := h
  refine ⟨label, property, value, x, text, key, ?_, hlooks⟩
  rw [Placed.below, at?_cons, hinput]
  exact hscan

/-- The conjuncts that are used once may be listed in any order. -/
theorem UsesOnce.perm (h : tree.UsesOnce g first conjuncts asks)
    (hperm : conjuncts.Perm conjuncts') : tree.UsesOnce g first conjuncts' asks := by
  obtain ⟨looked, tested, asked, h⟩ := h
  exact ⟨looked, tested, asked, { h with once := h.once.trans hperm }⟩

/-- A leaf takes care of nothing. -/
theorem usesOnce_scan (access : Access) (x text : String) :
    (scan access x text).UsesOnce g first [] [] :=
  ⟨[], [], [], .nil, List.forall_mem_nil _, .nil, .nil, List.forall_mem_nil _, .nil⟩

/-- A leaf takes care of a conjunct that it looks up. -/
theorem usesOnce_index {access : Access} {x text : String} {c : Expression}
    (h : (scan access x text).LooksUp g ⟨[], c⟩) :
    (scan access x text).UsesOnce g first [c] [] :=
  ⟨[⟨[], c⟩], [], [], .refl _, List.forall_mem_singleton.2 h, List.nodup_singleton _, .nil,
    List.forall_mem_nil _, .nil⟩

private theorem perm_exchange {α : Type} (k l m n : List α) :
    ((k ++ l) ++ (m ++ n)).Perm ((k ++ m) ++ (l ++ n)) := by
  rw [List.append_assoc, List.append_assoc]
  exact (List.perm_append_comm_assoc ..).append_left _

namespace Uses

variable {looked tested asked looked' tested' asked' : List Placed}

/-- What an operator with one input tests comes on top. -/
theorem usesOnce_only (h : input.Uses g first conjuncts asks looked tested asked)
    (hinputs : op.inputs = [input]) {ready added : List Expression}
    (htests : op.tests.Perm ((ready ++ added).map (⟨[], ·⟩) ++ input.tests.map (.below 0)))
    (hready : ∀ e ∈ ready, input.Lowest first e.reads []) :
    op.UsesOnce g first (conjuncts ++ ready) (asks ++ added) := by
  refine ⟨looked.map (.below 0), tested.map (.below 0) ++ ready.map (⟨[], ·⟩),
    asked.map (.below 0) ++ added.map (⟨[], ·⟩), ?_⟩
  constructor
  case once =>
    rw [← List.append_assoc, ← List.map_append, List.map_append, Placed.map_condition_below,
      Placed.map_condition_root]
    exact h.once.append_right _
  case looks => exact List.forall_mem_map.2 fun p hp => (h.looks p hp).below (by rw [hinputs]; rfl)
  case apart => exact Placed.nodup_address_below.2 h.apart
  case tests =>
    have hinput := h.tests.map (Placed.below 0)
    rw [List.map_append] at hinput
    rw [List.map_append] at htests
    exact (htests.trans ((List.Perm.append_left _ hinput).trans List.perm_append_comm)).trans
      (perm_exchange ..)
  case lowest =>
    refine List.forall_mem_append.2 ⟨List.forall_mem_map.2 fun p hp => ?_,
      List.forall_mem_map.2 fun e he => ?_⟩
    · exact (h.lowest p hp).below_only hinputs
    · exact (hready e he).below_only hinputs
  case asks =>
    rw [List.map_append, Placed.map_condition_below, Placed.map_condition_root]
    exact h.asks.append_right _

end Uses

/-- An operator other than a filter leaves the conditions where they are. -/
theorem UsesOnce.unary (h : input.UsesOnce g first conjuncts asks) (hinputs : op.inputs = [input])
    (hfilter : ∀ c, op ≠ .filter input c) : op.UsesOnce g first conjuncts asks := by
  obtain ⟨looked, tested, asked, h⟩ := h
  have hnone : op.UsesOnce g first (conjuncts ++ []) (asks ++ []) :=
    h.usesOnce_only hinputs (.of_eq (tests_of_inputs hinputs hfilter)) (List.forall_mem_nil _)
  rwa [List.append_nil, List.append_nil] at hnone

/-- A filter tests some further conditions. Its input should be the lowest operator that binds what
is read by those of them that are conjuncts. -/
theorem UsesOnce.filter (h : input.UsesOnce g first conjuncts asks) {c : Expression}
    {ready added : List Expression} (hc : c.conjuncts = ready ++ added)
    (hready : ∀ e ∈ ready, input.Lowest first e.reads []) :
    (input.filter c).UsesOnce g first (conjuncts ++ ready) (asks ++ added) := by
  obtain ⟨looked, tested, asked, h⟩ := h
  exact h.usesOnce_only rfl (.of_eq (by rw [Operator.tests, hc])) hready

/-- A product leaves the conditions where they are if its inputs bind different names and whatever
is used in its right input reads some. -/
theorem UsesOnce.product (h : left.UsesOnce g first conjuncts asks)
    (h' : right.UsesOnce g second conjuncts' asks')
    (hapart : ∀ a b names, left.BindsAt a names → right.BindsAt b names → names = [])
    (hright : ∀ e ∈ conjuncts', e.reads ≠ []) :
    (left.product right).UsesOnce g first (conjuncts ++ conjuncts') (asks ++ asks') := by
  obtain ⟨looked, tested, asked, h⟩ := h
  obtain ⟨looked', tested', asked', h'⟩ := h'
  refine ⟨looked.map (.below 0) ++ looked'.map (.below 1),
    tested.map (.below 0) ++ tested'.map (.below 1),
    asked.map (.below 0) ++ asked'.map (.below 1), ?_⟩
  constructor
  case once =>
    have honce := h.once.append h'.once
    simp only [List.map_append, Placed.map_condition_below] at honce ⊢
    exact (perm_exchange ..).trans honce
  case looks =>
    exact List.forall_mem_append.2 ⟨List.forall_mem_map.2 fun p hp => (h.looks p hp).below rfl,
      List.forall_mem_map.2 fun p hp => (h'.looks p hp).below rfl⟩
  case apart =>
    rw [List.map_append, List.nodup_append]
    refine ⟨Placed.nodup_address_below.2 h.apart, Placed.nodup_address_below.2 h'.apart, ?_⟩
    simp only [List.forall_mem_map, Placed.below]
    intro p _ p' _ heq
    cases heq
  case tests =>
    refine ((h.tests.map _).append (h'.tests.map _)).trans ?_
    rw [List.map_append, List.map_append]
    exact perm_exchange ..
  case lowest =>
    refine List.forall_mem_append.2 ⟨List.forall_mem_map.2 fun p hp => ?_,
      List.forall_mem_map.2 fun p hp => ?_⟩
    · have hp := h.lowest p hp
      refine hp.below rfl (fun hne j other hother b hb => ?_) fun _ => ⟨rfl, rfl⟩
      rcases j with _ | _ | j <;> cases hother
      · rfl
      · exact absurd (hapart _ _ _ hp.binds hb) hne
    · have hreads : p.condition.reads ≠ [] := hright _ (h'.once.mem_iff.1
        (List.mem_map_of_mem (List.mem_append_right _ hp)))
      have hp := h'.lowest p hp
      refine hp.below rfl (fun hne j other hother b hb => ?_) fun hnil => absurd hnil hreads
      rcases j with _ | _ | j <;> cases hother
      · exact absurd (hapart _ _ _ hb hp.binds) hne
      · rfl
  case asks =>
    rw [List.map_append, Placed.map_condition_below, Placed.map_condition_below]
    exact h.asks.append h'.asks

end Operator

end Plexus
