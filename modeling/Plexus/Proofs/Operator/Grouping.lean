import Plexus.Operator.Aggregation
import Plexus.Proofs.Assoc
import Plexus.Proofs.Outcome

/-!
# Grouping row by row

Taking in rows one after the other comes to the same as dividing all rows by their keys first: there
is one group for each key, in the order in which the keys are first seen, and each column goes
through the rows of the group alone.
-/

namespace Plexus

/-- Grouping does not tell the key values apart. -/
def sameKey (a b : List Value) : Bool := a.map Value.canonical = b.map Value.canonical

namespace AggregateColumn

/-- Take a row into the accumulator of a column. -/
def take (g : Graph) (c : AggregateColumn) (acc : Accumulator) (row : Row) :
    Except QueryFault Accumulator :=
  match c.argument with
  | some e => do acc.add (← e.evaluate g row)
  | none => .ok acc.tick

/-- What a column has gathered after some rows. -/
def ofRows (g : Graph) (c : AggregateColumn) (rows : List Row) : Except QueryFault Accumulator :=
  rows.foldlM (c.take g) (.fresh c.function)

end AggregateColumn

namespace Groups

/-- Rows with the values of their grouping keys. -/
abbrev Keyed := List (List Value × Row)

/-- The rows with a key. -/
def members (keyed : Keyed) (key : List Value) : List Row :=
  (keyed.filter fun p => sameKey p.1 key).map (·.2)

/-- The keys in the order in which they are first seen, each once. -/
def found (keyed : Keyed) : List (List Value) := (keyed.map (·.1)).eraseDupsBy sameKey

/-- The row of the group with a key. -/
def rowOf (g : Graph) (keys : List NamedExpression) (columns : List AggregateColumn) (keyed : Keyed)
    (key : List Value) : Except QueryFault Row := do
  let accumulators ← columns.mapM (·.ofRows g (members keyed key))
  return toRow keys columns ⟨key, accumulators⟩

/-- One row for each group of rows with the same key. Without grouping keys there is one group,
which may be empty. -/
def listed (g : Graph) (keys : List NamedExpression) (columns : List AggregateColumn)
    (rows : List Row) : Except QueryFault (List Row) := do
  let keyed ← rows.mapM fun row => do
    return (← evaluateAll g row (keys.map (·.expression)), row)
  let groups := if keyed.isEmpty && keys.isEmpty then [[]] else found keyed
  groups.mapM (rowOf g keys columns keyed)

variable {g : Graph} {keys : List NamedExpression} {columns : List AggregateColumn}
variable {accs : List Accumulator}

private theorem addRow_cons {c : AggregateColumn} {acc acc' : Accumulator}
    {accs' : List Accumulator} {row : Row} (h : c.take g acc row = .ok acc')
    (h' : addRow g row columns accs = .ok accs') :
    addRow g row (c :: columns) (acc :: accs) = .ok (acc' :: accs') := by
  unfold AggregateColumn.take at h
  cases hc : c.argument with
  | none =>
    rw [hc] at h
    cases h
    simp only [addRow, hc]
    exact bind_eq_ok.2 ⟨_, rfl, bind_eq_ok.2 ⟨accs', h', rfl⟩⟩
  | some e =>
    rw [hc] at h
    obtain ⟨v, hv, hadd⟩ := bind_eq_ok.1 h
    simp only [addRow, hc]
    exact bind_eq_ok.2 ⟨v, hv, bind_eq_ok.2 ⟨acc', hadd, bind_eq_ok.2 ⟨accs', h', rfl⟩⟩⟩

private theorem foldlM_addRow_cons {c : AggregateColumn} {rows : List Row} {acc acc' : Accumulator}
    {accs' : List Accumulator} (h : rows.foldlM (c.take g) acc = .ok acc')
    (h' : rows.foldlM (fun accs row => addRow g row columns accs) accs = .ok accs') :
    rows.foldlM (fun accs row => addRow g row (c :: columns) accs) (acc :: accs) =
      .ok (acc' :: accs') := by
  induction rows generalizing acc accs with
  | nil =>
    cases h
    cases h'
    rfl
  | cons row rest ih =>
    obtain ⟨next, hnext, h⟩ := bind_eq_ok.1 h
    obtain ⟨nexts, hnexts, h'⟩ := bind_eq_ok.1 h'
    exact bind_eq_ok.2 ⟨_, addRow_cons hnext hnexts, ih h h'⟩

/-- A group takes in rows for all its columns at once; each column takes them in on its own. -/
theorem foldlM_addRow {rows : List Row}
    (h : List.Forall₂ (fun c acc => c.ofRows g rows = .ok acc) columns accs) :
    rows.foldlM (fun accs row => addRow g row columns accs)
      (columns.map fun c => .fresh c.function) = .ok accs := by
  induction h with
  | nil => induction rows with
    | nil => rfl
    | cons row rest ih => exact bind_eq_ok.2 ⟨_, rfl, ih⟩
  | cons hc _ ih => exact foldlM_addRow_cons hc ih

/-- Take a row with its key values into its group. -/
def addKeyed (g : Graph) (columns : List AggregateColumn) (groups : Groups)
    (p : List Value × Row) : Except QueryFault Groups := do
  let name := p.1.map Value.canonical
  let group := (groups.get? name).getD ⟨p.1, columns.map fun c => .fresh c.function⟩
  let accumulators ← addRow g p.2 columns group.accumulators
  return groups.set name { group with accumulators }

/-- The key values of all rows can be worked out before any is taken in. -/
theorem foldlM_add {rows : List Row} {keyed : Keyed}
    (h : List.Forall₂ (fun row p => evaluateAll g row (keys.map (·.expression)) = .ok p.1 ∧
      p.2 = row) rows keyed) (groups : Groups) :
    rows.foldlM (add g keys columns) groups = keyed.foldlM (addKeyed g columns) groups := by
  induction h generalizing groups with
  | nil => rfl
  | cons hp _ ih =>
    rename_i p _ _ _
    obtain ⟨key, row⟩ := p
    obtain ⟨hkey, rfl⟩ := hp
    have hadd : add g keys columns groups row = addKeyed g columns groups (key, row) := by
      simp only [add, hkey]
      rfl
    rw [List.foldlM_cons, List.foldlM_cons, hadd]
    exact bind_congr fun next => ih next

/-- The empty group of a key. -/
def opened (columns : List AggregateColumn) (key : List Value) : List Value × Group :=
  (key.map Value.canonical, ⟨key, columns.map fun c => .fresh c.function⟩)

/-- The keys that are first seen among some rows, if those with certain names were seen before. -/
def unseen (names : List (List Value)) (keyed : Keyed) : List (List Value) :=
  ((keyed.map (·.1)).filter fun key => !names.contains (key.map Value.canonical)).eraseDupsBy
    sameKey

private theorem unseen_cons_of_mem {names : List (List Value)} {key : List Value}
    (h : key.map Value.canonical ∈ names) (row : Row) (rest : Keyed) :
    unseen names ((key, row) :: rest) = unseen names rest := by
  simp only [unseen, List.map_cons, List.filter_cons, List.contains_iff_mem.2 h, Bool.not_true,
    Bool.false_eq_true, if_false]

private theorem unseen_cons_of_notMem {names : List (List Value)} {key : List Value}
    (h : key.map Value.canonical ∉ names) (row : Row) (rest : Keyed) :
    unseen names ((key, row) :: rest) =
      key :: unseen (names ++ [key.map Value.canonical]) rest := by
  simp only [unseen, List.map_cons, List.filter_cons, List.contains_eq_mem, h, decide_false,
    Bool.not_false, if_true, List.eraseDupsBy_cons, List.filter_filter]
  congr 3
  funext other
  simp [sameKey, Bool.and_comm]

private theorem mem_of_mem_eraseDupsBy {α : Type} {r : α → α → Bool} {a : α} :
    {l : List α} → a ∈ l.eraseDupsBy r → a ∈ l
  | [], h => h
  | b :: rest, h => by
    rw [List.eraseDupsBy_cons] at h
    rcases List.mem_cons.1 h with rfl | h
    · exact List.mem_cons_self
    · exact List.mem_cons_of_mem _ (List.mem_of_mem_filter (mem_of_mem_eraseDupsBy h))
termination_by l => l.length
decreasing_by exact Nat.lt_succ_of_le (List.length_filter_le _ _)

private theorem notMem_of_mem_unseen {names : List (List Value)} {keyed : Keyed} {key : List Value}
    (h : key ∈ unseen names keyed) : key.map Value.canonical ∉ names := by
  simpa using (List.mem_filter.1 (mem_of_mem_eraseDupsBy h)).2

/-- The groups that there are, and those that will be opened for some rows. -/
def withOpened (columns : List AggregateColumn) (groups : Groups) (keyed : Keyed) : Groups :=
  groups ++ (unseen groups.keys keyed).map (opened columns)

/-- Every group is listed once, under its key. -/
structure WellNamed (groups : Groups) : Prop where
  nodup : groups.keys.Nodup
  name_eq : ∀ p ∈ groups, p.1 = p.2.key.map Value.canonical

/-- Groups stay well named when one of them is written under the name of its key. -/
theorem WellNamed.set {groups : Groups} (h : WellNamed groups) {name : List Value} {group : Group}
    (hname : name = group.key.map Value.canonical) : WellNamed (groups.set name group) where
  nodup := Assoc.nodup_keys_set h.nodup name group
  name_eq p hp := by
    rcases Assoc.mem_of_mem_set hp with rfl | hp
    · exact hname
    · exact h.name_eq p hp

private theorem exists_group {groups : Groups} (hg : WellNamed groups) (key : List Value)
    (row : Row) (rest : Keyed) : ∃ front group back,
      withOpened columns groups ((key, row) :: rest) =
        front ++ (key.map Value.canonical, group) :: back ∧
      (groups.get? (key.map Value.canonical)).getD (opened columns key).2 = group ∧
      group.key.map Value.canonical = key.map Value.canonical ∧
      (∀ p ∈ front ++ back, p.2.key.map Value.canonical ≠ key.map Value.canonical) ∧
      ∀ next, withOpened columns (groups.set (key.map Value.canonical) next) rest =
        front ++ (key.map Value.canonical, next) :: back := by
  have hopened {names : List (List Value)} (hin : key.map Value.canonical ∈ names) :
      ∀ p ∈ (unseen names rest).map (opened columns),
        p.2.key.map Value.canonical ≠ key.map Value.canonical := by
    intro p hp heq
    obtain ⟨other, hother, rfl⟩ := List.mem_map.1 hp
    exact notMem_of_mem_unseen hother (heq ▸ hin)
  have hothers {p : List Value × Group} (hp : p ∈ groups)
      (heq : p.2.key.map Value.canonical = key.map Value.canonical) :
      p.1 = key.map Value.canonical := (hg.name_eq p hp).trans heq
  by_cases hmem : key.map Value.canonical ∈ groups.keys
  · obtain ⟨group, hget⟩ := Option.isSome_iff_exists.1 ((Assoc.get?_isSome_iff _ _).2 hmem)
    have hgroup := Assoc.mem_of_get? hget
    obtain ⟨front, back, hsplit, hne, hset⟩ := Assoc.exists_set_eq hg.nodup hgroup
    refine ⟨front, group, back ++ (unseen groups.keys rest).map (opened columns), ?_, ?_,
      (hg.name_eq _ hgroup).symm, ?_, fun next => ?_⟩
    · rw [withOpened, unseen_cons_of_mem hmem]
      exact (congrArg (· ++ _) hsplit).trans (List.append_assoc _ _ _)
    · rw [hget, Option.getD_some]
    · rw [← List.append_assoc]
      refine List.forall_mem_append.2 ⟨fun p hp heq => hne p hp (hothers ?_ heq), hopened hmem⟩
      rw [hsplit]
      exact (List.mem_append.1 hp).elim (List.mem_append_left _) fun hp =>
        List.mem_append_right _ (List.mem_cons_of_mem _ hp)
    · rw [withOpened, Assoc.keys_set groups next hmem, hset, List.append_assoc, List.cons_append]
  · have hnone : groups.get? (key.map Value.canonical) = none := by
      rw [← Option.not_isSome_iff_eq_none, Assoc.get?_isSome_iff]
      exact hmem
    refine ⟨groups, (opened columns key).2,
      (unseen (groups.keys ++ [key.map Value.canonical]) rest).map (opened columns), ?_, ?_, rfl,
      ?_, ?_⟩
    · rw [withOpened, unseen_cons_of_notMem hmem]
      rfl
    · rw [hnone, Option.getD_none]
    · refine List.forall_mem_append.2 ⟨fun p hp heq => ?_, hopened (by simp)⟩
      exact hmem (hothers hp heq ▸ List.mem_map_of_mem hp)
    · intro next
      rw [Assoc.set_of_notMem hmem, withOpened, Assoc.keys, List.map_append, List.append_assoc]
      rfl

/-- A group after it has taken in its members among some rows. -/
def Taken (g : Graph) (columns : List AggregateColumn) (keyed : Keyed)
    (p q : List Value × Group) : Prop :=
  q.1 = p.1 ∧ q.2.key = p.2.key ∧
    (members keyed p.2.key).foldlM (fun accs row => addRow g row columns accs)
      p.2.accumulators = .ok q.2.accumulators

private theorem eq_of_taken_nil {p q : List Value × Group} (h : Taken g columns [] p q) :
    p = q := by
  obtain ⟨name, key, accs⟩ := p
  obtain ⟨name', key', accs'⟩ := q
  obtain ⟨hname, hkey, haccs⟩ := h
  cases hname
  cases hkey
  cases haccs
  rfl

private theorem taken_cons_of_ne {key : List Value} {row : Row} {rest : Keyed}
    {p q : List Value × Group} (hne : p.2.key.map Value.canonical ≠ key.map Value.canonical)
    (h : Taken g columns ((key, row) :: rest) p q) : Taken g columns rest p q := by
  have hmembers : members ((key, row) :: rest) p.2.key = members rest p.2.key := by
    simp only [members, List.filter_cons, sameKey, decide_eq_false (Ne.symm hne),
      Bool.false_eq_true, if_false]
  exact ⟨h.1, h.2.1, hmembers ▸ h.2.2⟩

private theorem taken_cons_of_eq {key name : List Value} {row : Row} {rest : Keyed} {group : Group}
    {q : List Value × Group} (heq : group.key.map Value.canonical = key.map Value.canonical)
    (h : Taken g columns ((key, row) :: rest) (name, group) q) :
    ∃ accs, addRow g row columns group.accumulators = .ok accs ∧
      Taken g columns rest (name, { group with accumulators := accs }) q := by
  have hmembers : members ((key, row) :: rest) group.key = row :: members rest group.key := by
    simp only [members, List.filter_cons, sameKey, heq, decide_true, if_true, List.map_cons]
  obtain ⟨hname, hkey, htake⟩ := h
  rw [hmembers] at htake
  obtain ⟨accs, haccs, htake⟩ := bind_eq_ok.1 htake
  exact ⟨accs, haccs, hname, hkey, htake⟩

private theorem forall₂_between {α β : Type} {R : α → β → Prop} {front back : List α} {a : α}
    {out : List β} (h : List.Forall₂ R (front ++ a :: back) out) :
    ∃ b, R a b ∧ ∀ (S : α → β → Prop) (a' : α), (∀ c ∈ front ++ back, ∀ d, R c d → S c d) →
      S a' b → List.Forall₂ S (front ++ a' :: back) out := by
  induction front generalizing out with
  | nil =>
    obtain - | ⟨hb, hback⟩ := h
    refine ⟨_, hb, fun S a' hothers hself => .cons hself ?_⟩
    exact ((List.forall₂_and_left _ _).2 ⟨fun c hc => hc, hback⟩).imp fun c d hcd =>
      hothers c hcd.1 d hcd.2
  | cons c front ih =>
    obtain - | ⟨hc, hrest⟩ := h
    obtain ⟨b, hb, hreplace⟩ := ih hrest
    refine ⟨b, hb, fun S a' hothers hself => ?_⟩
    rw [List.cons_append, List.forall_mem_cons] at hothers
    exact .cons (hothers.1 _ hc) (hreplace S a' hothers.2 hself)

/-- Rows that every group can take in are taken in one after the other. -/
theorem foldlM_addKeyed {keyed : Keyed} {groups out : Groups} (hg : WellNamed groups)
    (h : List.Forall₂ (Taken g columns keyed) (withOpened columns groups keyed) out) :
    keyed.foldlM (addKeyed g columns) groups = .ok out := by
  induction keyed generalizing groups with
  | nil =>
    have heq := List.forall₂_eq_eq_eq ▸ h.imp fun p q => eq_of_taken_nil
    rw [← heq]
    simp [withOpened, unseen, pure, Except.pure]
  | cons p rest ih =>
    obtain ⟨key, row⟩ := p
    obtain ⟨front, group, back, hsplit, hget, hkey, hothers, hset⟩ := exists_group hg key row rest
    rw [hsplit] at h
    obtain ⟨q, hq, hreplace⟩ := forall₂_between h
    obtain ⟨accs, haccs, htaken⟩ := taken_cons_of_eq hkey hq
    have hnext : addKeyed g columns groups (key, row) =
        .ok (groups.set (key.map Value.canonical) { group with accumulators := accs }) := by
      subst hget
      exact bind_eq_ok.2 ⟨accs, haccs, rfl⟩
    refine bind_eq_ok.2 ⟨_, hnext, ih (hg.set hkey.symm) ?_⟩
    rw [hset]
    exact hreplace _ _ (fun p hp q => taken_cons_of_ne (hothers p hp)) htaken

private theorem exists_taken {keyed : Keyed} {key : List Value} {out : Row}
    (h : rowOf g keys columns keyed key = .ok out) :
    ∃ q : List Value × Group, Taken g columns keyed (opened columns key) q ∧
      toRow keys columns q.2 = out := by
  obtain ⟨accs, haccs, ⟨⟩⟩ := bind_eq_ok.1 h
  exact ⟨(_, ⟨key, accs⟩), ⟨rfl, rfl, foldlM_addRow (mapM_eq_ok.1 haccs)⟩, rfl⟩

private theorem exists_all_taken {keyed : Keyed} {found : List (List Value)} {out : List Row}
    (h : List.Forall₂ (fun key r => rowOf g keys columns keyed key = .ok r) found out) :
    ∃ groups : Groups, List.Forall₂ (Taken g columns keyed) (found.map (opened columns)) groups ∧
      groups.map (fun p => toRow keys columns p.2) = out := by
  induction h with
  | nil => exact ⟨[], .nil, rfl⟩
  | cons hkey _ ih =>
    obtain ⟨q, hq, rfl⟩ := exists_taken hkey
    obtain ⟨groups, hgroups, rfl⟩ := ih
    exact ⟨q :: groups, .cons hq hgroups, rfl⟩

/-- Rows that can be divided into groups are taken in row by row, and make the same rows. -/
theorem foldlM_add_of_listed {rows out : List Row} (h : listed g keys columns rows = .ok out) :
    ∃ groups, rows.foldlM (add g keys columns) [] = .ok groups ∧
      Groups.rows keys columns groups = out := by
  obtain ⟨keyed, hkeyed, h⟩ := bind_eq_ok.1 h
  have hrows : List.Forall₂ (fun row p => evaluateAll g row (keys.map (·.expression)) = .ok p.1 ∧
      p.2 = row) rows keyed := by
    refine (mapM_eq_ok.1 hkeyed).imp fun row p hp => ?_
    obtain ⟨key, hkey, ⟨⟩⟩ := bind_eq_ok.1 hp
    exact ⟨hkey, rfl⟩
  rw [foldlM_add hrows]
  have hfound : withOpened columns [] keyed = (found keyed).map (opened columns) := by
    simp [withOpened, unseen, found, Assoc.keys]
  split at h
  · rename_i hempty
    simp only [Bool.and_eq_true, List.isEmpty_iff] at hempty
    obtain ⟨rfl, rfl⟩ := hempty
    obtain ⟨groups, hgroups, rfl⟩ := exists_all_taken (mapM_eq_ok.1 h)
    obtain - | ⟨htaken, ⟨⟩⟩ := hgroups
    cases eq_of_taken_nil htaken
    exact ⟨[], rfl, rfl⟩
  · rename_i hfilled
    obtain ⟨groups, hgroups, rfl⟩ := exists_all_taken (mapM_eq_ok.1 h)
    refine ⟨groups, foldlM_addKeyed ⟨List.nodup_nil, by simp⟩ (hfound ▸ hgroups), ?_⟩
    have hcond : (groups.isEmpty && keys.isEmpty) = false := by
      cases keyed with
      | nil =>
        rw [List.isEmpty_nil, Bool.true_and] at hfilled
        rw [Bool.eq_false_iff.2 hfilled, Bool.and_false]
      | cons p rest =>
        rw [found, List.map_cons, List.eraseDupsBy_cons] at hgroups
        obtain - | ⟨-, -⟩ := hgroups
        rfl
    simp only [Groups.rows, hcond, Bool.false_eq_true, if_false]

end Groups

end Plexus
