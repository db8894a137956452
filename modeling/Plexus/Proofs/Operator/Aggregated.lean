import Plexus.Graph.Change
import Plexus.Proofs.Operator.Accumulated
import Plexus.Proofs.Operator.Gives
import Plexus.Proofs.Query.Row

/-!
# What grouping gives

Grouping takes in row after row, and each row changes the accumulators of one group. What holds
after every row is that the groups are those of the tuples seen so far, in the order in which these
were first seen, and that each group has taken in its own rows and no others.
-/

namespace Plexus

/-! ## Tuples that grouping does not tell apart -/

/-- Values are structurally equal: they are the same, or both are zero, or both are NaN. -/
inductive Value.Same : Value → Value → Prop where
  | refl (v : Value) : Same v v
  | zero {x y : Double} (hx : x.isZero = true) (hy : y.isZero = true) :
      Same (.scalar (.number x)) (.scalar (.number y))
  | nan {x y : Double} (hx : x.isNaN = true) (hy : y.isNaN = true) :
      Same (.scalar (.number x)) (.scalar (.number y))

/-- Tuples are structurally equal, value by value. -/
def SameTuple : List Value → List Value → Prop := List.Forall₂ Value.Same

namespace Double

variable {x y : Double}

theorem isNaN_of_isZero (h : x.isZero = true) : x.isNaN = false := by
  simp only [isZero, isNaN, decide_eq_true_eq, decide_eq_false_iff_not] at h ⊢
  rw [h]
  exact Nat.not_lt_zero _

/-- Both zeros stand as positive zero. -/
theorem canonical_of_isZero (h : x.isZero = true) : x.canonical = zero := if_pos h

/-- All NaNs stand as one. -/
theorem canonical_of_isNaN (h : x.isNaN = true) : x.canonical = nan := by
  have hzero : ¬x.isZero = true := fun hz => by simp [isNaN_of_isZero hz] at h
  rw [canonical, if_neg hzero, if_pos h]

/-- Any other number stands for itself. -/
theorem canonical_of_other (hz : x.isZero = false) (hn : x.isNaN = false) : x.canonical = x := by
  rw [canonical, if_neg (Bool.eq_false_iff.1 hz), if_neg (Bool.eq_false_iff.1 hn)]

/-- A number and what it stands as are zero together. -/
theorem isZero_canonical (x : Double) : x.canonical.isZero = x.isZero := by
  unfold canonical
  split
  · rename_i hz
    exact hz.symm
  · rename_i hz
    split
    · exact (Bool.eq_false_iff.2 hz).symm
    · rfl

/-- A number and what it stands as are NaN together. -/
theorem isNaN_canonical (x : Double) : x.canonical.isNaN = x.isNaN := by
  unfold canonical
  split
  · rename_i hz
    exact (isNaN_of_isZero hz).symm
  · split
    · rename_i hn
      exact hn.symm
    · rfl

/-- The representative folds the zeros and the NaNs, and nothing else. -/
theorem canonical_eq_iff : x.canonical = y.canonical ↔
    x = y ∨ (x.isZero = true ∧ y.isZero = true) ∨ (x.isNaN = true ∧ y.isNaN = true) := by
  constructor
  · intro h
    have hzero : x.isZero = y.isZero := by rw [← isZero_canonical, h, isZero_canonical]
    have hnan : x.isNaN = y.isNaN := by rw [← isNaN_canonical, h, isNaN_canonical]
    cases hxz : x.isZero with
    | true => exact .inr (.inl ⟨rfl, hzero ▸ hxz⟩)
    | false =>
      cases hxn : x.isNaN with
      | true => exact .inr (.inr ⟨rfl, hnan ▸ hxn⟩)
      | false =>
        rw [canonical_of_other hxz hxn, canonical_of_other (hzero ▸ hxz) (hnan ▸ hxn)] at h
        exact .inl h
  · rintro (rfl | ⟨hx, hy⟩ | ⟨hx, hy⟩)
    · rfl
    · rw [canonical_of_isZero hx, canonical_of_isZero hy]
    · rw [canonical_of_isNaN hx, canonical_of_isNaN hy]

end Double

/-- Values stand as one value if grouping takes them for the same. -/
theorem Value.canonical_eq_iff {a b : Value} : a.canonical = b.canonical ↔ a.Same b := by
  constructor
  · intro h
    by_cases hab : a = b
    · exact hab ▸ .refl a
    · rcases a with _ | _ | (_ | _ | x | _) <;> rcases b with _ | _ | (_ | _ | y | _) <;>
        simp only [canonical, Scalar.canonical, reduceCtorEq, scalar.injEq, Scalar.number.injEq,
          node.injEq, edge.injEq, Scalar.boolean.injEq, Scalar.text.injEq] at h hab
      all_goals try exact absurd h hab
      rcases Double.canonical_eq_iff.1 h with rfl | ⟨hx, hy⟩ | ⟨hx, hy⟩
      · exact .refl _
      · exact .zero hx hy
      · exact .nan hx hy
  · rintro (_ | ⟨hx, hy⟩ | ⟨hx, hy⟩)
    · rfl
    · have hsame := Double.canonical_eq_iff.2 (.inr (.inl ⟨hx, hy⟩))
      exact congrArg (fun z => scalar (.number z)) hsame
    · have hsame := Double.canonical_eq_iff.2 (.inr (.inr ⟨hx, hy⟩))
      exact congrArg (fun z => scalar (.number z)) hsame

/-- Grouping tells two tuples apart unless they are structurally equal. -/
theorem map_canonical_eq_iff {a b : List Value} :
    a.map Value.canonical = b.map Value.canonical ↔ SameTuple a b := by
  rw [← List.forall₂_eq_eq_eq, List.forall₂_map_left_iff, List.forall₂_map_right_iff]
  simp only [Value.canonical_eq_iff]
  rfl

instance (a b : List Value) : Decidable (SameTuple a b) := decidable_of_iff _ map_canonical_eq_iff

namespace SameTuple

variable {a b c : List Value}

theorem refl (a : List Value) : SameTuple a a := map_canonical_eq_iff.1 rfl

theorem symm (h : SameTuple a b) : SameTuple b a :=
  map_canonical_eq_iff.1 (map_canonical_eq_iff.2 h).symm

theorem trans (h : SameTuple a b) (h' : SameTuple b c) : SameTuple a c :=
  map_canonical_eq_iff.1 ((map_canonical_eq_iff.2 h).trans (map_canonical_eq_iff.2 h'))

end SameTuple

/-! ## Tuples in the order in which they are first seen -/

/-- Reading tuples from left to right, those that are unlike all before them. -/
inductive FirstSeen : List (List Value) → List (List Value) → Prop where
  | nil : FirstSeen [] []
  | new {tuples found : List (List Value)} {t : List Value} :
      FirstSeen tuples found → (∀ s ∈ tuples, ¬SameTuple s t) →
        FirstSeen (tuples ++ [t]) (found ++ [t])
  | old {tuples found : List (List Value)} {s t : List Value} :
      FirstSeen tuples found → s ∈ tuples → SameTuple s t → FirstSeen (tuples ++ [t]) found

namespace FirstSeen

variable {tuples found : List (List Value)}

/-- Every tuple is like one of those that are found. -/
theorem exists_same (h : FirstSeen tuples found) {t : List Value} (ht : t ∈ tuples) :
    ∃ s ∈ found, SameTuple s t := by
  induction h generalizing t with
  | nil => cases ht
  | new _ _ ih =>
    rcases List.mem_append.1 ht with ht | ht
    · obtain ⟨s, hs, hst⟩ := ih ht
      exact ⟨s, List.mem_append_left _ hs, hst⟩
    · exact ⟨t, List.mem_append_right _ ht, .refl t⟩
  | old _ hs hst ih =>
    rcases List.mem_append.1 ht with ht | ht
    · exact ih ht
    · obtain rfl := List.mem_singleton.1 ht
      obtain ⟨r, hr, hrs⟩ := ih hs
      exact ⟨r, hr, hrs.trans hst⟩

/-- A tuple that was found first is one of those that were seen. -/
theorem mem_of_found (h : FirstSeen tuples found) {t : List Value} (ht : t ∈ found) :
    t ∈ tuples := by
  induction h with
  | nil => cases ht
  | new _ _ ih =>
    rcases List.mem_append.1 ht with ht | ht
    · exact List.mem_append_left _ (ih ht)
    · exact List.mem_append_right _ ht
  | old _ _ _ ih => exact List.mem_append_left _ (ih ht)

/-- No two of those that are found are alike. -/
theorem distinct (h : FirstSeen tuples found) : found.Pairwise fun s t => ¬SameTuple s t := by
  induction h with
  | nil => exact .nil
  | new h hnew ih =>
    refine List.pairwise_append.2 ⟨ih, List.pairwise_singleton _ _, fun s hs t ht => ?_⟩
    exact List.mem_singleton.1 ht ▸ hnew s (h.mem_of_found hs)
  | old _ _ _ ih => exact ih

/-- If there are tuples, some are found. -/
theorem eq_nil (h : FirstSeen tuples []) : tuples = [] :=
  List.eq_nil_iff_forall_not_mem.2 fun _ ht => by
    obtain ⟨s, hs, -⟩ := h.exists_same ht
    cases hs

/-- Of empty tuples no more than one is found. -/
theorem eq_of_empty (h : FirstSeen tuples found) (hempty : ∀ t ∈ tuples, t = [])
    (hne : found ≠ []) : found = [[]] := by
  have hfound : ∀ s ∈ found, s = [] := fun s hs => hempty s (h.mem_of_found hs)
  match found with
  | [] => exact absurd rfl hne
  | [a] => rw [hfound a List.mem_cons_self]
  | a :: b :: rest =>
    have hdistinct := List.rel_of_pairwise_cons h.distinct List.mem_cons_self
    rw [hfound a (by simp), hfound b (by simp)] at hdistinct
    exact absurd (.refl []) hdistinct

end FirstSeen

namespace Groups

variable {g : Graph} {keys : List NamedExpression} {columns : List AggregateColumn}
variable {keyed : Keyed} {groups groups' : Groups} {key t : List Value} {row : Row}

/-- The members of a group are the rows whose tuple is like its own. -/
theorem members_eq (keyed : Keyed) (key : List Value) :
    members keyed key = (keyed.filter fun p => SameTuple p.1 key).map (·.2) := by
  simp only [members, sameKey, map_canonical_eq_iff]

/-- A row joins the rows of its own group. -/
theorem members_append_of_same (h : SameTuple key t) :
    members (keyed ++ [(key, row)]) t = members keyed t ++ [row] := by
  simp [members_eq, h]

/-- A row with another tuple does not join a group. -/
theorem members_append_of_not_same (h : ¬SameTuple key t) :
    members (keyed ++ [(key, row)]) t = members keyed t := by
  simp [members_eq, h]

/-- What holds of the groups after some rows: they are those of the tuples seen so far, and each one
has taken in its own rows. -/
structure Charged (g : Graph) (columns : List AggregateColumn) (keyed : Keyed) (groups : Groups) :
    Prop where
  named : WellNamed groups
  seen : FirstSeen (keyed.map (·.1)) (groups.map (·.2.key))
  taken (p : List Value × Group) : p ∈ groups →
    List.Forall₂ (fun c acc => c.ofRows g (members keyed p.2.key) = .ok acc) columns
      p.2.accumulators

/-- A row is taken in column by column. -/
theorem of_addRow_cons {c : AggregateColumn} {acc : Accumulator} {accs out : List Accumulator}
    (h : addRow g row (c :: columns) (acc :: accs) = .ok out) :
    ∃ next nexts, c.take g acc row = .ok next ∧ addRow g row columns accs = .ok nexts ∧
      out = next :: nexts := by
  unfold AggregateColumn.take
  cases hc : c.argument with
  | none =>
    simp only [addRow, hc] at h
    obtain ⟨next, hnext, h⟩ := bind_eq_ok.1 h
    obtain ⟨nexts, hnexts, ⟨⟩⟩ := bind_eq_ok.1 h
    exact ⟨next, nexts, hnext, hnexts, rfl⟩
  | some e =>
    simp only [addRow, hc] at h
    obtain ⟨v, hv, h⟩ := bind_eq_ok.1 h
    obtain ⟨next, hnext, h⟩ := bind_eq_ok.1 h
    obtain ⟨nexts, hnexts, ⟨⟩⟩ := bind_eq_ok.1 h
    exact ⟨next, nexts, bind_eq_ok.2 ⟨v, hv, hnext⟩, hnexts, rfl⟩

/-- Taking a row into the accumulators of a group takes it into each of them. -/
theorem of_addRow {rows : List Row} {accs accs' : List Accumulator}
    (h : List.Forall₂ (fun c acc => c.ofRows g rows = .ok acc) columns accs)
    (hadd : addRow g row columns accs = .ok accs') :
    List.Forall₂ (fun c acc => c.ofRows g (rows ++ [row]) = .ok acc) columns accs' := by
  induction h generalizing accs' with
  | nil =>
    cases hadd
    exact .nil
  | @cons c acc columns accs hc _ ih =>
    obtain ⟨next, nexts, hnext, hnexts, rfl⟩ := of_addRow_cons hadd
    refine .cons ?_ (ih hnexts)
    rw [AggregateColumn.ofRows, List.foldlM_append]
    exact bind_eq_ok.2 ⟨acc, hc, bind_eq_ok.2 ⟨next, hnext, rfl⟩⟩

/-- A row leaves every other group as it is. -/
theorem Charged.taken_of_ne (h : Charged g columns keyed groups)
    {p : List Value × Group} (hp : p ∈ groups) (hne : p.1 ≠ key.map Value.canonical) :
    List.Forall₂ (fun c acc => c.ofRows g (members (keyed ++ [(key, row)]) p.2.key) = .ok acc)
      columns p.2.accumulators := by
  rw [members_append_of_not_same fun hsame => hne ?_]
  · exact h.taken p hp
  · rw [h.named.name_eq p hp]
    exact (map_canonical_eq_iff.2 hsame).symm

/-- A row whose tuple was seen before goes to the group of that tuple. -/
theorem Charged.add_old (h : Charged g columns keyed groups) {group : Group}
    {accs : List Accumulator} (hget : groups.get? (key.map Value.canonical) = some group)
    (hadd : addRow g row columns group.accumulators = .ok accs) :
    Charged g columns (keyed ++ [(key, row)])
      (groups.set (key.map Value.canonical) { group with accumulators := accs }) := by
  have hgroup := Assoc.mem_of_get? hget
  have hname : key.map Value.canonical = group.key.map Value.canonical :=
    h.named.name_eq _ hgroup
  have hsame : SameTuple key group.key := map_canonical_eq_iff.1 hname
  obtain ⟨front, back, hsplit, hothers, hset⟩ := Assoc.exists_set_eq h.named.nodup hgroup
  have hmem {p : List Value × Group} (hp : p ∈ front ++ back) : p ∈ groups := by
    rw [hsplit]
    simp only [List.mem_append, List.mem_cons] at hp ⊢
    tauto
  constructor
  case named => exact h.named.set hname
  case seen =>
    have hkeys : (groups.set (key.map Value.canonical) { group with accumulators := accs }).map
        (·.2.key) = groups.map (·.2.key) := by
      rw [hset, hsplit]
      simp only [List.map_append, List.map_cons]
    rw [hkeys, List.map_append]
    exact .old h.seen (h.seen.mem_of_found (List.mem_map_of_mem hgroup)) hsame.symm
  case taken =>
    intro p hp
    rw [hset, List.mem_append, List.mem_cons] at hp
    rcases hp with hp | rfl | hp
    · exact h.taken_of_ne (hmem (List.mem_append_left _ hp)) (hothers p (List.mem_append_left _ hp))
    · rw [members_append_of_same hsame]
      exact of_addRow (h.taken _ hgroup) hadd
    · exact h.taken_of_ne (hmem (List.mem_append_right _ hp))
        (hothers p (List.mem_append_right _ hp))

/-- A row whose tuple was not seen before opens a group. -/
theorem Charged.add_new (h : Charged g columns keyed groups) {accs : List Accumulator}
    (hnew : key.map Value.canonical ∉ groups.keys)
    (hadd : addRow g row columns (columns.map fun c => .fresh c.function) = .ok accs) :
    Charged g columns (keyed ++ [(key, row)])
      (groups.set (key.map Value.canonical) ⟨key, accs⟩) := by
  have hunseen : ∀ t ∈ keyed.map (·.1), ¬SameTuple t key := by
    intro t ht hsame
    obtain ⟨s, hs, hst⟩ := h.seen.exists_same ht
    obtain ⟨p, hp, rfl⟩ := List.mem_map.1 hs
    refine hnew (List.mem_map.2 ⟨p, hp, ?_⟩)
    rw [h.named.name_eq p hp]
    exact map_canonical_eq_iff.2 (hst.trans hsame)
  constructor
  case named => exact h.named.set rfl
  case seen =>
    rw [Assoc.set_of_notMem hnew, List.map_append, List.map_append]
    exact .new h.seen hunseen
  case taken =>
    intro p hp
    rw [Assoc.set_of_notMem hnew, List.mem_append, List.mem_singleton] at hp
    rcases hp with hp | rfl
    · exact h.taken_of_ne hp fun heq => hnew (heq ▸ List.mem_map_of_mem hp)
    · rw [members_append_of_same (.refl key)]
      refine of_addRow ?_ hadd
      -- no row before this one has the tuple, so the accumulators are fresh
      have hnone : members keyed key = [] := by
        rw [members_eq, List.map_eq_nil_iff, List.filter_eq_nil_iff]
        exact fun p hp => by simpa using hunseen p.1 (List.mem_map_of_mem hp)
      rw [hnone, List.forall₂_map_right_iff, List.forall₂_same]
      exact fun c _ => rfl

/-- Taking in a row keeps every group charged with the rows of its own tuple. -/
theorem Charged.add (h : Charged g columns keyed groups)
    (hadd : addKeyed g columns groups (key, row) = .ok groups') :
    Charged g columns (keyed ++ [(key, row)]) groups' := by
  obtain ⟨accs, haccs, ⟨⟩⟩ := bind_eq_ok.1 hadd
  cases hget : groups.get? (key.map Value.canonical) with
  | some group =>
    rw [hget] at haccs
    exact h.add_old hget haccs
  | none =>
    rw [hget] at haccs
    refine h.add_new ?_ haccs
    rw [← Assoc.get?_isSome_iff, hget]
    nofun

/-- Taking in rows one by one charges each to its group. -/
theorem charged_of_foldlM {rows : List Row}
    (h : rows.foldlM (add g keys columns) [] = .ok groups) :
    ∃ keyed : Keyed, keyed.map (·.2) = rows ∧
      (∀ p ∈ keyed, evaluateAll g p.2 (keys.map (·.expression)) = .ok p.1) ∧
        Charged g columns keyed groups := by
  induction rows using List.reverseRecOn generalizing groups with
  | nil =>
    cases h
    exact ⟨[], rfl, List.forall_mem_nil _, ⟨List.nodup_nil, List.forall_mem_nil _⟩, .nil,
      List.forall_mem_nil _⟩
  | append_singleton rows row ih =>
    rw [List.foldlM_append] at h
    obtain ⟨before, hbefore, h⟩ := bind_eq_ok.1 h
    obtain ⟨after, hafter, ⟨⟩⟩ := bind_eq_ok.1 h
    obtain ⟨keyed, rfl, hkeyed, hcharged⟩ := ih hbefore
    obtain ⟨key, hkey, hadd⟩ := bind_eq_ok.1 hafter
    refine ⟨keyed ++ [(key, row)], by simp, ?_, hcharged.add hadd⟩
    exact List.forall_mem_append.2 ⟨hkeyed, List.forall_mem_singleton.2 hkey⟩

/-- The row of a group binds the columns of the keys and those of the aggregates. -/
theorem toRow_eq {accs : List Accumulator} (h : key.length = keys.length) :
    toRow keys columns ⟨key, accs⟩ = .ofColumns (keys.map (·.column) ++ columns.map (·.column))
      (key ++ accs.map (·.result)) := by
  have hkeys := Row.foldl_bind_values keys key (·.column) .empty
  rw [Row.ofColumns_append (by rw [List.length_map, h]), Row.ofColumns, ← Row.foldl_bind_zip]
  exact congrArg (fun r => (columns.zip accs).foldl (fun r p => r.bind p.1.column p.2.result) r)
    hkeys

/-- What a group shows: its tuple, and what each column comes to over the rows with this tuple. -/
def Shows (g : Graph) (keys : List NamedExpression) (columns : List AggregateColumn)
    (keyed : Keyed) (key : List Value) (out : Row) : Prop :=
  ∃ values, List.Forall₂ (fun (c : AggregateColumn) v =>
      c.Shows g ((keyed.filter fun p => SameTuple p.1 key).map (·.2)) v) columns values ∧
    out = .ofColumns (keys.map (·.column) ++ columns.map (·.column)) (key ++ values)

/-- A group shows what its accumulators have come to. -/
theorem shows_toRow {accs : List Accumulator} (hkey : key.length = keys.length)
    (haccs : List.Forall₂ (fun c acc => c.ofRows g (members keyed key) = .ok acc) columns accs) :
    Shows g keys columns keyed key (toRow keys columns ⟨key, accs⟩) := by
  refine ⟨accs.map (·.result), ?_, toRow_eq hkey⟩
  rw [List.forall₂_map_right_iff, ← members_eq]
  exact haccs.imp fun c acc => AggregateColumn.shows_of_rows

/-- So it is for every group. -/
theorem Charged.shows (h : Charged g columns keyed groups)
    (hkeyed : ∀ p ∈ keyed, p.1.length = keys.length) :
    List.Forall₂ (Shows g keys columns keyed) (groups.map (·.2.key))
      (groups.map fun p => toRow keys columns p.2) := by
  rw [List.forall₂_map_left_iff, List.forall₂_map_right_iff, List.forall₂_same]
  intro p hp
  obtain ⟨q, hq, hkey⟩ := List.mem_map.1 (h.seen.mem_of_found (List.mem_map_of_mem hp))
  exact shows_toRow (hkey ▸ hkeyed q hq) (h.taken p hp)

/-- Rows with the values of the keys, as grouping divides them, and what it shows for the groups. -/
structure Divides (g : Graph) (keys : List NamedExpression) (columns : List AggregateColumn)
    (keyed : Keyed) (tuples : List (List Value)) (out : List Row) : Prop where
  evaluated (p : List Value × Row) : p ∈ keyed →
    List.Forall₂ (fun k v => k.expression.evaluate g p.2 = .ok v) keys p.1
  /-- Tuples stand in the order in which they are first seen, as they were seen then. -/
  seen : keys ≠ [] → FirstSeen (keyed.map (·.1)) tuples
  /-- Without keys there is one group, which may be empty. -/
  single : keys = [] → tuples = [[]]
  covers (p : List Value × Row) : p ∈ keyed → ∃ t ∈ tuples, SameTuple t p.1
  distinct : tuples.Pairwise fun s t => ¬SameTuple s t
  shown : List.Forall₂ (Shows g keys columns keyed) tuples out

/-- Groups are shown as the rows are divided. -/
theorem Charged.divides (h : Charged g columns keyed groups)
    (hkeyed : ∀ p ∈ keyed, evaluateAll g p.2 (keys.map (·.expression)) = .ok p.1) :
    ∃ tuples, Divides g keys columns keyed tuples (rows keys columns groups) := by
  have hevaluated : ∀ p ∈ keyed,
      List.Forall₂ (fun k v => k.expression.evaluate g p.2 = .ok v) keys p.1 :=
    fun p hp => List.forall₂_map_left_iff.1 (evaluateAll_eq_ok.1 (hkeyed p hp))
  rw [rows]
  split
  · rename_i hempty
    rw [Bool.and_eq_true, List.isEmpty_iff, List.isEmpty_iff] at hempty
    obtain ⟨rfl, rfl⟩ := hempty
    have hnone : keyed = [] := List.map_eq_nil_iff.1 h.seen.eq_nil
    subst hnone
    -- the one group of no rows is made at the end, and no row was charged to it
    have hfresh : List.Forall₂ (fun c acc => c.ofRows g (members [] []) = .ok acc) columns
        (columns.map fun c => .fresh c.function) :=
      List.forall₂_map_right_iff.2 (List.forall₂_same.2 fun c _ => rfl)
    exact ⟨[[]], hevaluated, fun hne => absurd rfl hne, fun _ => rfl, List.forall_mem_nil _,
      List.pairwise_singleton _ _, .cons (shows_toRow rfl hfresh) .nil⟩
  · rename_i hfilled
    refine ⟨groups.map (·.2.key), hevaluated, fun _ => h.seen, fun hnil => ?_,
      fun p hp => h.seen.exists_same (List.mem_map_of_mem hp), h.seen.distinct,
      h.shows fun p hp => (hevaluated p hp).length_eq.symm⟩
    subst hnil
    refine h.seen.eq_of_empty (List.forall_mem_map.2 fun p hp => ?_) fun hno => hfilled ?_
    · exact List.forall₂_nil_left_iff.1 (hevaluated p hp)
    · rw [List.map_eq_nil_iff.1 hno]
      rfl

end Groups

namespace Operator

open Groups

/-- Grouping without a fault gives one row for each tuple of key values, in the order in which the
tuples are first seen, and each aggregate ranges over the rows with the tuple. -/
theorem divides_of_aggregate {g : Graph} {input : Operator} {keys : List NamedExpression}
    {columns : List AggregateColumn}
    (h : ((input.aggregate keys columns).output g).fault = none) :
    ∃ keyed tuples out, input.Gives g (keyed.map (·.2)) ∧
      (input.aggregate keys columns).Gives g out ∧ Divides g keys columns keyed tuples out := by
  generalize ho : (input.aggregate keys columns).output g = o at h
  obtain ⟨out, fault⟩ := o
  subst h
  have hgives := gives_iff.2 ho
  obtain ⟨rows, groups, hrows, hgroups, hout⟩ := gives_aggregate_iff.1 hgives
  obtain ⟨keyed, rfl, hkeyed, hcharged⟩ := charged_of_foldlM hgroups
  obtain ⟨tuples, hdivides⟩ := hcharged.divides hkeyed
  exact ⟨keyed, tuples, _, hrows, hgives, hout ▸ hdivides⟩

/-- A graph of unlabelled nodes with some properties, without relationships. -/
def bare (nodes : List (List (String × Scalar))) : Graph :=
  nodes.foldl (fun g properties => (g.createNode [] properties).1) (.empty {})

/-- Both zeros are one group, shown with the zero that was seen first, and the two nodes without the
property are another. In the sum of the first group a null is left out. -/
theorem divides_of_aggregate_zeros :
    let g := bare [[("k", .number .zero), ("v", .number (.ofNat 3))],
      [("v", .number (.ofNat 1))], [("k", .number (.ofMagnitude true 0))],
      [("v", .number (.ofNat 4))]]
    let input := Operator.scan .all "a" "(a)"
    let keys := [⟨.property "a" "k", "k"⟩]
    let columns := [⟨.count, none, "rows"⟩, ⟨.sum, some (.property "a" "v"), "sum"⟩]
    ((input.aggregate keys columns).output g).fault = none ∧
      (∃ keyed tuples out, input.Gives g (keyed.map (·.2)) ∧
        (input.aggregate keys columns).Gives g out ∧ Divides g keys columns keyed tuples out) ∧
      ((input.aggregate keys columns).output g).rows =
        [⟨[("k", .scalar (.number .zero)), ("rows", .scalar (.number (.ofNat 2))),
          ("sum", .scalar (.number (.ofNat 3)))]⟩,
        ⟨[("k", .null), ("rows", .scalar (.number (.ofNat 2))),
          ("sum", .scalar (.number (.ofNat 5)))]⟩] := by
  intro g input keys columns
  have hfault : ((input.aggregate keys columns).output g).fault = none := by decide +kernel
  exact ⟨hfault, divides_of_aggregate hfault, by decide +kernel⟩

end Operator

end Plexus
