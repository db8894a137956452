import Mathlib.Data.List.Sort
import Plexus.Operator.Sorting
import Plexus.Proofs.Outcome

/-!
# Sorting is stable

The order of values is that of a tuple: the kind first, and then what a value of that kind holds.
Sort keys are compared the same way, with nulls last whichever way a key goes. Both are therefore
total and transitive, so that there is one stable way to sort some rows, and `sortRows` finds it.
-/

namespace Plexus

open Std

/-- A comparison is a total preorder on some elements: every element is tied with itself, of two one
is not above the other, what is not above carries over, and exchanging two elements reverses the
answer. -/
structure TotalPreorder {α : Type} (cmp : α → α → Ordering) (among : α → Prop) : Prop where
  refl {a : α} : among a → cmp a a = .eq
  total {a b : α} : among a → among b → (cmp a b).isLE ∨ (cmp b a).isLE
  trans {a b c : α} : among a → among b → among c → (cmp a b).isLE → (cmp b c).isLE →
    (cmp a c).isLE
  swap {a b : α} : among a → among b → cmp b a = (cmp a b).swap

/-- A lawful comparison is a total preorder on any elements. -/
theorem totalPreorder_of_transCmp {α : Type} (cmp : α → α → Ordering) [TransCmp cmp]
    (among : α → Prop) : TotalPreorder cmp among where
  refl _ := ReflCmp.compare_self
  total {a b} _ _ := by
    have hswap : cmp b a = (cmp a b).swap := OrientedCmp.eq_swap
    rw [hswap]
    cases cmp a b <;> simp
  trans _ _ _ := TransCmp.isLE_trans
  swap _ _ := OrientedCmp.eq_swap

/-- Comparing what is read off the elements is a comparison. -/
theorem transCmp_comap {α β : Type} (cmp : β → β → Ordering) [TransCmp cmp] (f : α → β) :
    TransCmp fun a b => cmp (f a) (f b) where
  eq_swap {a b} := (OrientedCmp.eq_swap : cmp (f a) (f b) = (cmp (f b) (f a)).swap)
  isLE_trans {a _ c} hab hbc := (TransCmp.isLE_trans hab hbc : (cmp (f a) (f c)).isLE)

namespace Scalar

/-- What a boolean holds. -/
private def booleanPart : Scalar → Bool
  | boolean b => b
  | _ => false

/-- What a number holds. -/
private def numberPart : Scalar → Double
  | number x => x
  | _ => .zero

/-- What a text holds. -/
private def textPart : Scalar → String
  | text s => s
  | _ => ""

private theorem order_eq : order = compareLex (compareOn sortRank)
    (compareLex (compareOn booleanPart) (compareLex (compareOn numberPart)
      (compareOn textPart))) := by
  funext a b
  cases a <;> cases b <;>
    simp [order, compareLex, compareOn, sortRank, booleanPart, numberPart, textPart] <;> rfl

instance : TransCmp order := order_eq ▸ inferInstance

end Scalar

namespace Value

/-- Place of a value's kind, of which property values have one. -/
private def kindRank : Value → Nat
  | node _ => 0
  | edge _ => 1
  | scalar _ => 2

private def nodePart : Value → NodeId
  | node id => id
  | _ => ⟨0⟩

private def edgePart : Value → EdgeId
  | edge id => id
  | _ => ⟨0⟩

private def scalarPart : Value → Scalar
  | scalar s => s
  | _ => .null

private theorem order_eq : order = compareLex (compareOn kindRank) (compareLex (compareOn nodePart)
    (compareLex (compareOn edgePart) fun a b => a.scalarPart.order b.scalarPart)) := by
  funext a b
  have hnull : Scalar.order .null .null = .eq := rfl
  rcases a with a | a | (- | - | - | -) <;> rcases b with b | b | (- | - | - | -) <;>
    simp [order, compareLex, compareOn, kindRank, sortRank, nodePart, edgePart, scalarPart,
      hnull] <;> rfl

instance : TransCmp order := by
  have := transCmp_comap Scalar.order scalarPart
  exact order_eq ▸ inferInstance

end Value

private theorem compareKey_eq (ascending : Bool) : compareKey ascending =
    compareLex (compareOn Value.isNull)
      (if ascending then Value.order else fun a b => b.order a) := by
  have hnull : compare false true = .lt ∧ compare true false = .gt := ⟨rfl, rfl⟩
  have hswap (a b : Value) : (a.order b).swap = b.order a := OrientedCmp.eq_swap.symm
  funext a b
  unfold compareKey
  cases ha : a.isNull <;> cases hb : b.isNull <;> cases ascending <;>
    simp [compareLex, compareOn, ha, hb, hnull, hswap]

instance (ascending : Bool) : TransCmp (compareKey ascending) := by
  rw [compareKey_eq]
  cases ascending with
  | false => exact inferInstanceAs (TransCmp (compareLex _ fun a b => Value.order b a))
  | true => exact inferInstanceAs (TransCmp (compareLex _ Value.order))

/-- The order of two lists of key values, in which missing ones are null. -/
private def comparePadded : List OrderItem → List Value → List Value → Ordering
  | [] => fun _ _ => .eq
  | item :: items => compareLex (fun as bs => compareKey item.ascending (as.headD .null)
      (bs.headD .null)) fun as bs => comparePadded items as.tail bs.tail

private theorem transCmp_comparePadded (items : List OrderItem) :
    TransCmp (comparePadded items) := by
  induction items with
  | nil => exact { eq_swap := rfl, isLE_trans := fun _ _ => rfl }
  | cons item items ih =>
    have hhead := transCmp_comap (compareKey item.ascending) fun as : List Value => as.headD .null
    have htail := transCmp_comap (comparePadded items) (List.tail (α := Value))
    exact inferInstanceAs (TransCmp (compareLex _ _))

private theorem compareKeys_eq {items : List OrderItem} {as bs : List Value}
    (ha : as.length = items.length) (hb : bs.length = items.length) :
    compareKeys items as bs = comparePadded items as bs := by
  induction items generalizing as bs with
  | nil => rfl
  | cons item items ih =>
    obtain ⟨a, as, rfl⟩ := List.exists_cons_of_length_eq_add_one ha
    obtain ⟨b, bs, rfl⟩ := List.exists_cons_of_length_eq_add_one hb
    rw [compareKeys, ih (Nat.succ.inj ha) (Nat.succ.inj hb)]
    rfl

/-- Tuples with a value for every key are compared by a total preorder. -/
theorem totalPreorder_compareKeys (keys : List OrderItem) :
    TotalPreorder (compareKeys keys) fun as => as.length = keys.length := by
  have := transCmp_comparePadded keys
  have hpadded := totalPreorder_of_transCmp (comparePadded keys) fun as => as.length = keys.length
  constructor
  case refl =>
    intro a ha
    rw [compareKeys_eq ha ha]
    exact hpadded.refl ha
  case total =>
    intro a b ha hb
    rw [compareKeys_eq ha hb, compareKeys_eq hb ha]
    exact hpadded.total ha hb
  case trans =>
    intro a b c ha hb hc
    rw [compareKeys_eq ha hb, compareKeys_eq hb hc, compareKeys_eq ha hc]
    exact hpadded.trans ha hb hc
  case swap =>
    intro a b ha hb
    rw [compareKeys_eq ha hb, compareKeys_eq hb ha]
    exact hpadded.swap ha hb

section

variable {α : Type} {le : α → α → Bool}

/-- The elements that are neither before nor after one. -/
private def tied (le : α → α → Bool) (a b : α) : Bool := le a b && le b a

/-- A sorted list is determined by its elements and the order of those that are tied. -/
theorem eq_of_sorted (total : ∀ a b, le a b || le b a) {l l' : List α} (hperm : l.Perm l')
    (hl : l.Pairwise fun a b => le a b) (hl' : l'.Pairwise fun a b => le a b)
    (htied : ∀ a ∈ l, l.filter (tied le a) = l'.filter (tied le a)) : l = l' := by
  induction l generalizing l' with
  | nil => exact hperm.nil_eq
  | cons a rest ih =>
    have hself (c : α) : le c c = true := by simpa using total c c
    cases l' with
    | nil => exact absurd hperm.symm.nil_eq (by simp)
    | cons b rest' =>
      have hab : le a b = true := by
        rcases List.mem_cons.1 (hperm.mem_iff.2 List.mem_cons_self) with rfl | hb
        · exact hself b
        · exact List.rel_of_pairwise_cons hl hb
      have hba : le b a = true := by
        rcases List.mem_cons.1 (hperm.mem_iff.1 List.mem_cons_self) with rfl | ha
        · exact hself a
        · exact List.rel_of_pairwise_cons hl' ha
      have hheads := htied a List.mem_cons_self
      simp only [List.filter_cons, tied, hself, hab, hba, Bool.and_self, if_true,
        List.cons.injEq] at hheads
      obtain rfl := hheads.1
      refine congrArg (a :: ·) (ih hperm.cons_inv hl.of_cons hl'.of_cons fun c hc => ?_)
      have hc := htied c (List.mem_cons_of_mem a hc)
      simp only [List.filter_cons] at hc
      split at hc
      · exact List.tail_eq_of_cons_eq hc
      · exact hc

private theorem filter_tied_eq (trans : ∀ a b c, le a b → le b c → le a c) {l out : List α}
    (hperm : out.Perm l)
    (hstable : ∀ c : List α, c.Pairwise (fun a b => le a b) → c.Sublist l → c.Sublist out) (a : α) :
    out.filter (tied le a) = l.filter (tied le a) := by
  have hsorted : (l.filter (tied le a)).Pairwise fun b c => le b c := by
    refine List.pairwise_of_forall_mem_list fun b hb c hc => ?_
    simp only [List.mem_filter, tied, Bool.and_eq_true] at hb hc
    exact trans b a c hb.2.2 hc.2.1
  have hsub := (hstable _ hsorted List.filter_sublist).filter (tied le a)
  simp only [List.filter_filter, Bool.and_self] at hsub
  exact (hsub.eq_of_length (hperm.filter _).length_eq.symm).symm

/-- There is one stable way to sort: merging sorted parts and inserting one by one agree. -/
theorem mergeSort_eq_insertionSort (trans : ∀ a b c, le a b → le b c → le a c)
    (total : ∀ a b, le a b || le b a) (l : List α) :
    l.mergeSort le = l.insertionSort fun a b => le a b = true := by
  have : Std.Total fun a b => le a b = true := ⟨fun a b => by simpa using total a b⟩
  have : IsTrans α fun a b => le a b = true := ⟨trans⟩
  have hmerge := List.mergeSort_perm l le
  have hinsert := List.perm_insertionSort (fun a b => le a b = true) l
  refine eq_of_sorted total (hmerge.trans hinsert.symm) (List.pairwise_mergeSort trans total l)
    (List.pairwise_insertionSort _ l) fun a _ => ?_
  rw [filter_tied_eq trans hmerge fun c hc hsub => List.sublist_mergeSort trans total hc hsub,
    filter_tied_eq trans hinsert fun c hc hsub => List.sublist_insertionSort hc hsub]

end

private theorem exists_le {α : Type} (keys : List OrderItem) {key : α → List Value} {l : List α}
    (h : ∀ a ∈ l, (key a).length = keys.length) : ∃ le : α → α → Bool,
      (∀ a b c, le a b → le b c → le a c) ∧ (∀ a b, le a b || le b a) ∧
        ∀ a ∈ l, ∀ b ∈ l, le a b = true ↔ compareKeys keys (key a) (key b) ≠ .gt := by
  have := transCmp_comparePadded keys
  refine ⟨fun a b => (comparePadded keys (key a) (key b)).isLE,
    fun a b c => TransCmp.isLE_trans, fun a b => ?_, fun a ha b hb => ?_⟩
  · have hswap : comparePadded keys (key a) (key b) = (comparePadded keys (key b) (key a)).swap :=
      OrientedCmp.eq_swap
    simp only [hswap]
    cases comparePadded keys (key b) (key a) <;> rfl
  · rw [compareKeys_eq (h a ha) (h b hb)]
    exact Ordering.isLE_iff_ne_gt

private theorem mergeSort_eq {α : Type} {keys : List OrderItem} {key : α → List Value} {l : List α}
    {le : α → α → Bool}
    (hle : ∀ a ∈ l, ∀ b ∈ l, le a b = true ↔ compareKeys keys (key a) (key b) ≠ .gt) :
    (l.mergeSort fun a b => compareKeys keys (key a) (key b) ≠ .gt) = l.mergeSort le := by
  have hmerge := List.map_mergeSort (f := id) (s := le) (l := l)
    (r := fun a b => compareKeys keys (key a) (key b) ≠ .gt) fun a ha b hb => by
      simp [← hle a ha b hb]
  simpa only [List.map_id_fun, id_eq] using hmerge

/-- Rows with a value for every key are sorted by inserting one after the other, each before the
first that does not come before it. -/
theorem sortRows_eq (keys : List OrderItem) {rows : List KeyedRow}
    (h : ∀ r ∈ rows, r.key.length = keys.length) : sortRows keys rows =
      (rows.insertionSort fun a b => compareKeys keys a.key b.key ≠ .gt).map (·.row) := by
  obtain ⟨le, htrans, htotal, hle⟩ := exists_le keys h
  have hinsert := List.map_insertionSort (fun a b => le a b = true)
    (fun a b => compareKeys keys a.key b.key ≠ .gt) id rows hle
  simp only [List.map_id_fun, id_eq] at hinsert
  rw [sortRows, mergeSort_eq hle, mergeSort_eq_insertionSort htrans htotal rows, hinsert]

/-! ## The order of keys in words -/

/-- A value of a key comes before another one. Null comes last whichever way the key goes. -/
def KeyBefore (ascending : Bool) (a b : Value) : Prop :=
  a.isNull = false ∧ (b.isNull = true ∨ a.order b = if ascending then .lt else .gt)

/-- A tuple of key values comes before another one: the first key that tells them apart decides. -/
inductive KeysBefore : List OrderItem → List Value → List Value → Prop where
  | here {item : OrderItem} {items : List OrderItem} {a b : Value} {as bs : List Value} :
      KeyBefore item.ascending a b → KeysBefore (item :: items) (a :: as) (b :: bs)
  | later {item : OrderItem} {items : List OrderItem} {a b : Value} {as bs : List Value} :
      ¬KeyBefore item.ascending a b → ¬KeyBefore item.ascending b a → KeysBefore items as bs →
        KeysBefore (item :: items) (a :: as) (b :: bs)

/-- Neither tuple comes before the other. -/
def Tied (keys : List OrderItem) (as bs : List Value) : Prop :=
  ¬KeysBefore keys as bs ∧ ¬KeysBefore keys bs as

/-- One key is compared below another if it comes before it. -/
theorem compareKey_eq_lt_iff {ascending : Bool} {a b : Value} :
    compareKey ascending a b = .lt ↔ KeyBefore ascending a b := by
  have hnull {v : Value} (hv : v.isNull = true) : v = .null := by
    cases v with
    | scalar s => cases s <;> first | rfl | cases hv
    | _ => cases hv
  unfold compareKey KeyBefore
  cases ha : a.isNull <;> cases hb : b.isNull
  -- only here is the order asked about nulls, which it must not tell apart
  case true.true =>
    rw [hnull ha, hnull hb]
    cases ascending <;> decide
  all_goals cases ascending <;> simp [Ordering.swap_eq_lt]

/-- Two keys are compared equal if neither comes before the other. -/
theorem compareKey_eq_eq_iff {ascending : Bool} {a b : Value} : compareKey ascending a b = .eq ↔
    ¬KeyBefore ascending a b ∧ ¬KeyBefore ascending b a := by
  rw [← compareKey_eq_lt_iff, ← compareKey_eq_lt_iff, ← OrientedCmp.gt_iff_lt (a := a)]
  cases compareKey ascending a b <;> simp

/-- One tuple is compared below another if it comes before it. -/
theorem compareKeys_eq_lt_iff {keys : List OrderItem} {as bs : List Value} :
    compareKeys keys as bs = .lt ↔ KeysBefore keys as bs := by
  induction keys generalizing as bs with
  | nil => exact ⟨nofun, nofun⟩
  | cons item items ih =>
    cases as with
    | nil => exact ⟨nofun, nofun⟩
    | cons a as =>
      cases bs with
      | nil => exact ⟨nofun, nofun⟩
      | cons b bs =>
        rw [compareKeys, Ordering.then_eq_lt, compareKey_eq_lt_iff, compareKey_eq_eq_iff, ih]
        constructor
        · rintro (h | ⟨⟨h, h'⟩, hrest⟩)
          · exact .here h
          · exact .later h h' hrest
        · rintro (h | ⟨h, h', hrest⟩)
          · exact .inl h
          · exact .inr ⟨⟨h, h'⟩, hrest⟩

/-- Of the keys only their directions matter. -/
theorem compareKeys_congr {keys items : List OrderItem}
    (h : List.Forall₂ (fun item key => key.ascending = item.ascending) items keys)
    (as bs : List Value) : compareKeys keys as bs = compareKeys items as bs := by
  induction h generalizing as bs with
  | nil => rfl
  | cons hkey _ ih =>
    cases as with
    | nil => rfl
    | cons a as =>
      cases bs with
      | nil => rfl
      | cons b bs => rw [compareKeys, compareKeys, hkey, ih]

/-- Of two tuples of full length one is not above the other if the other does not come before it. -/
theorem compareKeys_ne_gt_iff {keys : List OrderItem} {as bs : List Value}
    (ha : as.length = keys.length) (hb : bs.length = keys.length) :
    compareKeys keys as bs ≠ .gt ↔ ¬KeysBefore keys bs as := by
  have := transCmp_comparePadded keys
  rw [← compareKeys_eq_lt_iff, compareKeys_eq ha hb, compareKeys_eq hb ha]
  exact not_congr OrientedCmp.gt_iff_lt

instance (keys : List OrderItem) (as bs : List Value) : Decidable (KeysBefore keys as bs) :=
  decidable_of_iff _ compareKeys_eq_lt_iff

instance (keys : List OrderItem) (as bs : List Value) : Decidable (Tied keys as bs) :=
  inferInstanceAs (Decidable (_ ∧ _))

/-- What sorting by keys comes to: the elements are the same, none stands behind one that it comes
before, and tied ones stand as they did. -/
structure Sorts {α : Type} (keys : List OrderItem) (key : α → List Value) (l sorted : List α) :
    Prop where
  perm : sorted.Perm l
  nondecreasing : sorted.Pairwise fun a b => ¬KeysBefore keys (key b) (key a)
  stable (a : α) : a ∈ l →
    sorted.filter (Tied keys (key a) <| key ·) = l.filter (Tied keys (key a) <| key ·)

section

variable {α : Type} {keys : List OrderItem} {key : α → List Value} {l : List α}

private theorem le_iff_and_tied_eq (h : ∀ a ∈ l, (key a).length = keys.length) {le : α → α → Bool}
    (hle : ∀ a ∈ l, ∀ b ∈ l, le a b = true ↔ compareKeys keys (key a) (key b) ≠ .gt) {a b : α}
    (ha : a ∈ l) (hb : b ∈ l) : (le a b = true ↔ ¬KeysBefore keys (key b) (key a)) ∧
      tied le a b = decide (Tied keys (key a) (key b)) := by
  have hab := (hle a ha b hb).trans (compareKeys_ne_gt_iff (h a ha) (h b hb))
  have hba := (hle b hb a ha).trans (compareKeys_ne_gt_iff (h b hb) (h a ha))
  refine ⟨hab, ?_⟩
  rw [Bool.eq_iff_iff, decide_eq_true_iff, tied, Bool.and_eq_true, hab, hba]
  exact and_comm

/-- Merge sort by the comparison of the keys sorts, ties in their order. -/
theorem sorts_mergeSort (h : ∀ a ∈ l, (key a).length = keys.length) :
    Sorts keys key l (l.mergeSort fun a b => compareKeys keys (key a) (key b) ≠ .gt) := by
  obtain ⟨le, htrans, htotal, hle⟩ := exists_le keys h
  have hwords {a b : α} (ha : a ∈ l) (hb : b ∈ l) := le_iff_and_tied_eq h hle ha hb
  have hperm := List.mergeSort_perm l le
  rw [mergeSort_eq hle]
  refine ⟨hperm, ?_, fun a ha => ?_⟩
  · refine (List.pairwise_mergeSort htrans htotal l).imp_of_mem fun ha hb hab => ?_
    exact (hwords (hperm.mem_iff.1 ha) (hperm.mem_iff.1 hb)).1.1 hab
  · have htied := filter_tied_eq htrans hperm
      (fun c hc hsub => List.sublist_mergeSort htrans htotal hc hsub) a
    rw [← List.filter_congr fun b hb => (hwords ha hb).2,
      ← List.filter_congr fun b hb => (hwords ha (hperm.mem_iff.1 hb)).2, htied]

/-- There is one way to sort elements with a value for every key. -/
theorem Sorts.unique (h : ∀ a ∈ l, (key a).length = keys.length) {sorted other : List α}
    (hsorted : Sorts keys key l sorted) (hother : Sorts keys key l other) : other = sorted := by
  obtain ⟨le, -, htotal, hle⟩ := exists_le keys h
  have hwords {a b : α} (ha : a ∈ l) (hb : b ∈ l) := le_iff_and_tied_eq h hle ha hb
  have hpairwise {s : List α} (hs : Sorts keys key l s) : s.Pairwise fun a b => le a b :=
    hs.nondecreasing.imp_of_mem fun ha hb hab =>
      (hwords (hs.perm.mem_iff.1 ha) (hs.perm.mem_iff.1 hb)).1.2 hab
  have htied {s : List α} (hs : Sorts keys key l s) {a : α} (ha : a ∈ l) :
      s.filter (tied le a) = l.filter (Tied keys (key a) <| key ·) := by
    rw [List.filter_congr fun b hb => (hwords ha (hs.perm.mem_iff.1 hb)).2]
    exact hs.stable a ha
  refine eq_of_sorted htotal (hother.perm.trans hsorted.perm.symm) (hpairwise hother)
    (hpairwise hsorted) fun a ha => ?_
  have hmem := hother.perm.mem_iff.1 ha
  rw [htied hother hmem, htied hsorted hmem]

end

/-- Expressions are evaluated one by one. -/
theorem evaluateAll_eq_ok {g : Graph} {row : Row} {es : List Expression} {values : List Value} :
    evaluateAll g row es = .ok values ↔
      List.Forall₂ (fun e v => e.evaluate g row = .ok v) es values := by
  have hmapM : evaluateAll g row es = es.mapM (·.evaluate g row) := by
    induction es with
    | nil => rfl
    | cons e rest ih => rw [List.mapM_cons, evaluateAll, ih]
  rw [hmapM, mapM_eq_ok]

/-- A row is keyed with the values of the keys on it. -/
theorem KeyedRow.of_eq_ok {g : Graph} {keys : List OrderItem} {row : Row} {keyed : KeyedRow} :
    KeyedRow.of g keys row = .ok keyed ↔ keyed.row = row ∧
      List.Forall₂ (fun key v => key.expression.evaluate g row = .ok v) keys keyed.key := by
  rw [KeyedRow.of, bind_eq_ok]
  simp only [evaluateAll_eq_ok, List.forall₂_map_left_iff]
  constructor
  · rintro ⟨values, hvalues, ⟨⟩⟩
    exact ⟨rfl, hvalues⟩
  · rintro ⟨rfl, hvalues⟩
    exact ⟨_, hvalues, rfl⟩

/-- A row is keyed with a value for every key. -/
theorem KeyedRow.length_of {g : Graph} {keys : List OrderItem} {row : Row} {keyed : KeyedRow}
    (h : KeyedRow.of g keys row = .ok keyed) : keyed.key.length = keys.length :=
  (KeyedRow.of_eq_ok.1 h).2.length_eq.symm

end Plexus
