import Plexus.Scalar

/-!
# Index keys

The form in which a property value is indexed. Null and NaN have no key, because no equality
predicate can match them; both zeros have the key of zero. Keys are totally ordered, booleans
before numbers before texts, and equal in that order only if they are the same key.
-/

namespace Plexus

/-- The indexed form of a value. -/
inductive IndexKey where
  | boolean (b : Bool)
  | number (x : Double)
  | text (s : String)
  deriving DecidableEq, Repr

namespace IndexKey

/-- The key of a value, if an equality predicate can match it. -/
def ofScalar? : Scalar → Option IndexKey
  | .null => none
  | .boolean b => some (boolean b)
  | .number x => if x.isNaN then none else some (number (if x.isZero then .zero else x))
  | .text s => some (text s)

/-- The order of keys: by kind, then by value, numbers in their total order. -/
protected def compare : IndexKey → IndexKey → Ordering
  | boolean a, boolean b => Ord.compare a b
  | boolean _, _ => .lt
  | number _, boolean _ => .gt
  | number x, number y => Ord.compare x y
  | number _, text _ => .lt
  | text s, text t => Ord.compare s t
  | text _, _ => .gt

instance : Ord IndexKey := ⟨IndexKey.compare⟩

instance : Std.OrientedOrd IndexKey where
  eq_swap {a b} :=
    match a, b with
    | boolean p, boolean q => (Std.OrientedOrd.eq_swap : compare p q = (compare q p).swap)
    | number x, number y => (Std.OrientedOrd.eq_swap : compare x y = (compare y x).swap)
    | text s, text t => (Std.OrientedOrd.eq_swap : compare s t = (compare t s).swap)
    | boolean _, number _ | boolean _, text _ | number _, boolean _ | number _, text _
    | text _, boolean _ | text _, number _ => rfl

instance : Std.TransOrd IndexKey where
  isLE_trans {a b c} hab hbc :=
    match a, b, c with
    | boolean p, boolean q, boolean r =>
      (Std.TransOrd.isLE_trans : (compare p q).isLE → (compare q r).isLE → (compare p r).isLE)
        hab hbc
    | number x, number y, number z =>
      (Std.TransOrd.isLE_trans : (compare x y).isLE → (compare y z).isLE → (compare x z).isLE)
        hab hbc
    | text s, text t, text u =>
      (Std.TransOrd.isLE_trans : (compare s t).isLE → (compare t u).isLE → (compare s u).isLE)
        hab hbc
    | boolean _, _, number _ | boolean _, _, text _ | number _, _, text _ => rfl
    | boolean _, number _, boolean _ | boolean _, text _, boolean _ | number _, text _, number _
    | number _, text _, boolean _ | text _, text _, boolean _ | text _, text _, number _
    | number _, number _, boolean _ => Bool.noConfusion (show false = true from hbc)
    | number _, boolean _, _ | text _, boolean _, _ | text _, number _, _ =>
      Bool.noConfusion (show false = true from hab)

instance : Std.LawfulEqOrd IndexKey where
  eq_of_compare {a b} h :=
    match a, b with
    | boolean p, boolean q =>
      congrArg boolean (Std.LawfulEqOrd.eq_of_compare (show compare p q = .eq from h))
    | number x, number y =>
      congrArg number (Std.LawfulEqOrd.eq_of_compare (show compare x y = .eq from h))
    | text s, text t =>
      congrArg text (Std.LawfulEqOrd.eq_of_compare (show compare s t = .eq from h))
    | boolean _, number _ | boolean _, text _ | number _, text _ =>
      Ordering.noConfusion (show Ordering.lt = .eq from h)
    | number _, boolean _ | text _, boolean _ | text _, number _ =>
      Ordering.noConfusion (show Ordering.gt = .eq from h)

end IndexKey

end Plexus
