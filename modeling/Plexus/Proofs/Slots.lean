import Plexus.Arena.InPlace
import Plexus.Proofs.Arena

/-!
# Lives of slots

An arena takes calls in any order and with any slot numbers, and a log is kept of those it serves.
The calls are carried out in place, where a fault undoes nothing, and come to the same as the
operations on arenas as values. What one of them can do is said once: it reads, fills the next slot,
or takes one slot forward. So the numbers are given out in order, every slot holds what the log says
was last put into it, the live slots are counted, and a refused call leaves no trace.
-/

namespace Plexus

variable {α : Type}

/-- What a slot may become: it stays, a reserved one is written, a record is replaced, or the slot
is retired. -/
inductive Slot.Becomes : Slot α → Slot α → Prop where
  | same (s : Slot α) : Becomes s s
  | written (r : α) : Becomes .reserved (.live r)
  | replaced (r r' : α) : Becomes (.live r) (.live r')
  | retired (s : Slot α) : Becomes s .tombstone

/-- A slot may become what it may become in two steps. -/
theorem Slot.Becomes.trans {s t u : Slot α} (h : s.Becomes t) (h' : t.Becomes u) : s.Becomes u := by
  cases h with
  | same => exact h'
  | written r => cases h' <;> constructor
  | replaced r r' => cases h' <;> constructor
  | retired => cases h' <;> constructor

/-- A retired slot stays so. -/
theorem Slot.Becomes.eq_tombstone {s : Slot α} (h : Slot.tombstone.Becomes s) : s = .tombstone := by
  cases h <;> rfl

namespace Arena

/-- A call on an arena. -/
inductive Call (α : Type) where
  | allocate
  | insert (record : α)
  | pushTombstone
  | free (slot : Nat)
  | write (slot : Nat) (record : α)
  | read (slot : Nat)
  | modify (slot : Nat) (f : α → α)

/-- What a call that is served answers. -/
inductive Answer (α : Type) where
  /-- The number of the slot that was allocated. -/
  | allocated (slot : Nat)
  /-- The record that was in the slot. -/
  | former (record : Option α)
  /-- The record that is read, or that is about to be changed. -/
  | found (record : α)

def Answer.number? : Answer α → Option Nat
  | .allocated slot => some slot
  | .former _ | .found _ => none

/-- The arena that a call leads to and what it answers, unless it is refused. -/
def run (a : Arena α) : Call α → Except GraphFault (Arena α × Answer α)
  | .allocate => .ok (a.allocate.1, .allocated a.allocate.2)
  | .insert r => .ok ((a.insert r).1, .allocated (a.insert r).2)
  | .pushTombstone => .ok (a.pushTombstone.1, .allocated a.pushTombstone.2)
  | .free i => (a.free i).map fun (b, old) => (b, .former old)
  | .write i r => (a.write i r).map fun (b, old) => (b, .former old)
  | .read i => (a.read i).map fun r => (a, .found r)
  | .modify i f => do
    let r ← a.read i
    return (← a.modify i f, .found r)

/-- A call carried out in place. -/
def Call.perform : Call α → Action α (Answer α)
  | .allocate => return .allocated (← Action.allocate)
  | .insert r => return .allocated (← Action.insert r)
  | .pushTombstone => return .allocated (← Action.pushTombstone)
  | .free i => return .former (← Action.free i)
  | .write i r => return .former (← Action.write i r)
  | .read i => return .found (← Action.read i)
  | .modify i f => return .found (← Action.alter i f)

/-- The arena that a call leaves, served or refused. -/
def after (a : Arena α) (c : Call α) : Arena α :=
  match c.perform.run a with
  | .ok _ b | .error _ b => b

/-- The calls that were served with their answers, the latest first. -/
abbrev Log (α : Type) := List (Call α × Answer α)

/-- What a served call puts into which slot. -/
def placed : Call α × Answer α → Option (Nat × Slot α)
  | (.allocate, .allocated i) => some (i, .reserved)
  | (.insert r, .allocated i) => some (i, .live r)
  | (.pushTombstone, .allocated i) => some (i, .tombstone)
  | (.free i, .former _) => some (i, .tombstone)
  | (.write i r, .former _) => some (i, .live r)
  | (.modify i f, .found r) => some (i, .live (f r))
  | _ => none

/-- What was last put into a slot. -/
def Log.last? (log : Log α) (slot : Nat) : Option (Slot α) := (log.filterMap placed).lookup slot

/-- The numbers given out, in order. -/
def Log.numbers (log : Log α) : List Nat := (log.filterMap fun e => e.2.number?).reverse

/-- Take one more call, and log it if it is served. -/
def serve (x : Arena α × Log α) (c : Call α) : Arena α × Log α :=
  match c.perform.run x.1 with
  | .ok answer b => (b, (c, answer) :: x.2)
  | .error _ b => (b, x.2)

/-- The slot that a call names cannot serve it: it was never allocated or is retired, or it holds no
record to be read. -/
def Call.Misses (a : Arena α) : Call α → Nat → Prop
  | .free i, j | .write i _, j => i = j ∧ (a.capacity ≤ i ∨ a.slots[i]? = some .tombstone)
  | .read i, j | .modify i _, j =>
    i = j ∧ (a.capacity ≤ i ∨ a.slots[i]? = some .tombstone ∨ a.slots[i]? = some .reserved)
  | .allocate, _ | .insert _, _ | .pushTombstone, _ => False

variable {a b : Arena α} {c : Call α} {answer : Answer α} {log : Log α} {i : Nat}

/-- All that a served call can do. -/
inductive Effect (a : Arena α) (entry : Call α × Answer α) (b : Arena α) : Prop where
  /-- The call only reads. -/
  | keep (hp : placed entry = none) (hn : entry.2.number? = none) (hb : b = a)
  /-- The next slot is allocated. -/
  | push (s : Slot α) (hp : placed entry = some (a.capacity, s))
    (hn : entry.2.number? = some a.capacity) (hb : b = ⟨a.slots.push s, a.live + s.weight⟩)
  /-- One slot is taken forward. -/
  | set (i : Nat) (old s : Slot α) (hold : a.slots[i]? = some old) (hs : old.Becomes s)
    (hp : placed entry = some (i, s)) (hn : entry.2.number? = none)
    (hb : b = ⟨a.slots.setIfInBounds i s, a.live + s.weight - old.weight⟩)

/-- Reading a slot succeeds if it holds a live record. -/
theorem read_eq_ok {r : α} : a.read i = .ok r ↔ a.slots[i]? = some (.live r) := by
  rw [← get?_eq_some_iff, read]
  cases a.get? i <;> simp

/-- The slot that was added last has the number that was next before. -/
theorem run_latest (s : Slot α) (n : Nat) :
    Action.latest.run ⟨a.slots.push s, n⟩ = .ok a.capacity ⟨a.slots.push s, n⟩ := by
  change EStateM.Result.ok ((a.slots.push s).size - 1) _ = _
  rw [Array.size_push, Nat.add_sub_cancel, capacity]

/-- Carried out in place, a call does all of what it says, or nothing if it is refused. -/
theorem run_perform (a : Arena α) (c : Call α) :
    c.perform.run a = match a.run c with
      | .ok (b, answer) => .ok answer b
      | .error fault => .error fault a := by
  cases c with
  | allocate =>
    simp only [Call.perform, Action.allocate, Action.push, EStateM.run_bind, EStateM.run_modify,
      run_latest]
    rfl
  | insert r =>
    simp only [Call.perform, Action.insert, Action.push, Action.gain, EStateM.run_bind,
      EStateM.run_modify, run_latest]
    rfl
  | pushTombstone =>
    simp only [Call.perform, Action.pushTombstone, Action.push, EStateM.run_bind,
      EStateM.run_modify, run_latest]
    rfl
  | free i =>
    simp only [Call.perform, Action.free, Action.replace, run, free, EStateM.run_bind,
      EStateM.run_get]
    rcases a.slots[i]? with _ | (_ | old | _) <;> rfl
  | write i r =>
    simp only [Call.perform, Action.write, Action.replace, run, write, EStateM.run_bind,
      EStateM.run_get]
    rcases a.slots[i]? with _ | (_ | old | _) <;> rfl
  | read i =>
    simp only [Call.perform, Action.read, run, read, get?, EStateM.run_bind, EStateM.run_get]
    rcases a.slots[i]? with _ | (_ | r | _) <;> rfl
  | modify i f =>
    simp only [Call.perform, Action.alter, Action.read, run, read, modify, get?, EStateM.run_bind,
      EStateM.run_get]
    rcases a.slots[i]? with _ | (_ | r | _) <;> rfl

/-- A call in place ends as the call does. -/
theorem perform_eq_ok : c.perform.run a = .ok answer b ↔ a.run c = .ok (b, answer) := by
  rw [run_perform]
  rcases a.run c with fault | ⟨b', answer'⟩ <;> simp [and_comm]

/-- A refusal in place leaves no trace. -/
theorem perform_eq_error {fault : GraphFault} :
    c.perform.run a = .error fault b ↔ b = a ∧ a.run c = .error fault := by
  rw [run_perform]
  rcases a.run c with fault' | ⟨b', answer'⟩ <;> simp [and_comm, eq_comm]

/-- A served call reads, fills the next slot or takes one slot forward. -/
theorem effect_of_run (h : a.run c = .ok (b, answer)) : a.Effect (c, answer) b := by
  cases c with
  | allocate =>
    cases h
    exact .push .reserved rfl rfl rfl
  | insert r =>
    cases h
    exact .push (.live r) rfl rfl rfl
  | pushTombstone =>
    cases h
    exact .push .tombstone rfl rfl rfl
  | free i =>
    simp only [run, free] at h
    split at h
    · rename_i old hold
      cases h
      exact .set i (.live old) .tombstone hold (.retired _) rfl rfl rfl
    · rename_i hold
      cases h
      exact .set i .reserved .tombstone hold (.retired _) rfl rfl rfl
    · cases h
    · cases h
  | write i r =>
    simp only [run, write] at h
    split at h
    · rename_i old hold
      cases h
      exact .set i (.live old) (.live r) hold (.replaced old r) rfl rfl rfl
    · rename_i hold
      cases h
      exact .set i .reserved (.live r) hold (.written r) rfl rfl rfl
    · cases h
    · cases h
  | read i =>
    simp only [run, read] at h
    split at h
    · cases h
      exact .keep rfl rfl rfl
    · cases h
  | modify i f =>
    simp only [run, read, modify] at h
    split at h
    · rename_i r hr
      cases h
      exact .set i (.live r) (.live (f r)) (get?_eq_some_iff.1 hr) (.replaced r (f r)) rfl rfl rfl
    · cases h

/-- A call changes a slot, if at all, into what it may become. -/
theorem Effect.becomes {entry : Call α × Answer α} (h : a.Effect entry b) {s : Slot α}
    (hs : a.slots[i]? = some s) : ∃ s', b.slots[i]? = some s' ∧ s.Becomes s' := by
  have hi : i < a.slots.size := (Array.getElem?_eq_some_iff.1 hs).1
  cases h with
  | keep _ _ hb =>
    subst hb
    exact ⟨s, hs, .same s⟩
  | push t _ _ hb =>
    subst hb
    exact ⟨s, by rw [Array.getElem?_push, if_neg (by omega), hs], .same s⟩
  | set j old t hold ht _ _ hb =>
    subst hb
    have hj : j < a.slots.size := (Array.getElem?_eq_some_iff.1 hold).1
    by_cases hij : i = j
    · subst hij
      rw [hs] at hold
      cases hold
      exact ⟨t, by rw [getElem?_set a t hj, if_pos rfl], ht⟩
    · exact ⟨s, by rw [getElem?_set a t hj, if_neg hij, hs], .same s⟩

/-- After a call every slot is there, and is what it may become. -/
theorem becomes_after (c : Call α) {s : Slot α} (hs : a.slots[i]? = some s) :
    ∃ s', (a.after c).slots[i]? = some s' ∧ s.Becomes s' := by
  unfold after
  split
  · rename_i hc
    exact (effect_of_run (perform_eq_ok.1 hc)).becomes hs
  · rename_i hc
    obtain ⟨rfl, -⟩ := perform_eq_error.1 hc
    exact ⟨s, hs, .same s⟩

/-- Over any calls a slot becomes what it may. -/
theorem becomes_foldl (calls : List (Call α)) {s : Slot α} (hs : a.slots[i]? = some s) :
    ∃ s', (calls.foldl after a).slots[i]? = some s' ∧ s.Becomes s' := by
  induction calls generalizing a s with
  | nil => exact ⟨s, hs, .same s⟩
  | cons c rest ih =>
    obtain ⟨t, ht, hst⟩ := becomes_after c hs
    obtain ⟨u, hu, htu⟩ := ih ht
    exact ⟨u, hu, hst.trans htu⟩

namespace Log

variable {entry : Call α × Answer α}

/-- An answer that puts nothing into a slot leaves what was last put there. -/
theorem last?_cons_of_none (h : placed entry = none) (log : Log α) (i : Nat) :
    last? (entry :: log) i = log.last? i := by
  rw [last?, List.filterMap_cons_none h]
  rfl

/-- An answer that puts something into a slot decides on that slot alone. -/
theorem last?_cons_of_some {j : Nat} {s : Slot α} (h : placed entry = some (j, s)) (log : Log α)
    (i : Nat) : last? (entry :: log) i = if i = j then some s else log.last? i := by
  rw [last?, List.filterMap_cons_some h, List.lookup_cons]
  by_cases hij : i = j
  · simp [hij]
  · have hne : (i == j) = false := beq_eq_false_iff_ne.2 hij
    simp [hne, hij, last?]

/-- An answer without a number adds none to those that were given out. -/
theorem numbers_cons_of_none (h : entry.2.number? = none) (log : Log α) :
    numbers (entry :: log) = log.numbers := by
  simp only [numbers, List.filterMap_cons, h]

/-- An answer with a number adds it last to those that were given out. -/
theorem numbers_cons_of_some {n : Nat} (h : entry.2.number? = some n) (log : Log α) :
    numbers (entry :: log) = log.numbers ++ [n] := by
  simp only [numbers, List.filterMap_cons, h, List.reverse_cons]

end Log

/-- The numbers are given out in order, every slot holds what was last put into it, and the live
slots are counted. -/
structure Follows (a : Arena α) (log : Log α) : Prop where
  numbers_eq : log.numbers = List.range a.capacity
  slot_eq (i : Nat) : a.slots[i]? = log.last? i
  live_eq : a.live = a.records.length

namespace Follows

/-- The empty arena follows the empty log. -/
theorem empty : (empty : Arena α).Follows [] where
  numbers_eq := rfl
  slot_eq i := by simp [Arena.empty, Log.last?]
  live_eq := rfl

/-- The effect of a call on an arena is followed by the log with its answer. -/
theorem effect (h : a.Follows log) {entry : Call α × Answer α} (he : a.Effect entry b) :
    b.Follows (entry :: log) := by
  cases he with
  | keep hp hn hb =>
    subst hb
    exact ⟨by rw [Log.numbers_cons_of_none hn, h.numbers_eq],
      fun i => by rw [Log.last?_cons_of_none hp, h.slot_eq], h.live_eq⟩
  | push s hp hn hb =>
    subst hb
    refine ⟨?_, fun i => ?_, ?_⟩
    · rw [Log.numbers_cons_of_some hn, h.numbers_eq, ← List.range_succ, capacity, capacity,
        Array.size_push]
    · rw [Log.last?_cons_of_some hp, Array.getElem?_push, h.slot_eq]
      rfl
    · rw [length_records_push, h.live_eq]
  | set i old s hold hs hp hn hb =>
    subst hb
    have hi : i < a.slots.size := (Array.getElem?_eq_some_iff.1 hold).1
    refine ⟨?_, fun j => ?_, ?_⟩
    · rw [Log.numbers_cons_of_none hn, h.numbers_eq, capacity, capacity, Array.size_setIfInBounds]
    · rw [Log.last?_cons_of_some hp, getElem?_set a s hi, h.slot_eq]
    · have hlen := length_records_set hold s (a.live + s.weight - old.weight)
      have hlive := h.live_eq
      dsimp only
      omega

/-- Serving a call keeps an arena in step with its log. -/
theorem serve {x : Arena α × Log α} (h : x.1.Follows x.2) (c : Call α) :
    (serve x c).1.Follows (Arena.serve x c).2 := by
  unfold Arena.serve
  split
  · rename_i hc
    exact h.effect (effect_of_run (perform_eq_ok.1 hc))
  · rename_i hc
    obtain ⟨rfl, -⟩ := perform_eq_error.1 hc
    exact h

/-- What one call keeps, any number of them keeps. -/
theorem foldl {x : Arena α × Log α} (h : x.1.Follows x.2) (calls : List (Call α)) :
    (calls.foldl Arena.serve x).1.Follows (calls.foldl Arena.serve x).2 := by
  induction calls generalizing x with
  | nil => exact h
  | cons c rest ih => exact ih (h.serve c)

/-- Freeing a live slot takes one off a count that is not zero. -/
theorem live_of_free (h : a.Follows log) {r : α} (hr : a.free i = .ok (b, some r)) :
    b.live + 1 = a.live := by
  unfold free at hr
  split at hr
  · rename_i old hold
    cases hr
    have hmem : r ∈ a.records := mem_records.2 ⟨i, get?_eq_some_iff.2 hold⟩
    have hpos := List.length_pos_of_mem hmem
    have hlive := h.live_eq
    dsimp only
    omega
  · cases hr
  · cases hr
  · cases hr

end Follows

/-- A call is refused exactly if the slot it names cannot serve it. -/
theorem run_eq_error_iff {fault : GraphFault} :
    a.run c = .error fault ↔ ∃ slot, c.Misses a slot ∧ fault = .outOfRange slot := by
  have hrange (i : Nat) : a.capacity ≤ i ↔ a.slots[i]? = none := Array.getElem?_eq_none_iff.symm
  cases c with
  | allocate => simp [run, Call.Misses]
  | insert r => simp [run, Call.Misses]
  | pushTombstone => simp [run, Call.Misses]
  | free i =>
    rcases hs : a.slots[i]? with _ | (_ | r | _) <;>
      simp [run, free, Call.Misses, hrange, hs, Except.map, eq_comm]
  | write i r =>
    rcases hs : a.slots[i]? with _ | (_ | r | _) <;>
      simp [run, write, Call.Misses, hrange, hs, Except.map, eq_comm]
  | read i =>
    rcases hs : a.slots[i]? with _ | (_ | r | _) <;>
      simp [run, read, get?, Slot.record?, Call.Misses, hrange, hs, Except.map, eq_comm]
  | modify i f =>
    rcases hs : a.slots[i]? with _ | (_ | r | _) <;>
      simp [run, read, modify, get?, Slot.record?, Call.Misses, hrange, hs, bind, Except.bind, pure,
        Except.pure, eq_comm]

/-- Keeping a log does not change what a call does. -/
theorem fst_serve (x : Arena α × Log α) (c : Call α) : (serve x c).1 = x.1.after c := by
  rw [serve, after]
  cases c.perform.run x.1 <;> rfl

/-- Keeping a log does not change what calls do. -/
theorem fst_foldl_serve (x : Arena α × Log α) (calls : List (Call α)) :
    (calls.foldl serve x).1 = calls.foldl after x.1 := by
  induction calls generalizing x with
  | nil => rfl
  | cons c rest ih => rw [List.foldl_cons, ih, fst_serve, List.foldl_cons]

/-- What can be relied on in an arena that has served the calls of a log. -/
structure Faithful (a : Arena α) (log : Log α) : Prop where
  /-- Slots are numbered in the order of their allocation, from zero on. -/
  numbers_eq : log.numbers = List.range a.capacity
  slot_eq (i : Nat) : a.slots[i]? = log.last? i
  read_iff (i : Nat) (r : α) : a.read i = .ok r ↔ log.last? i = some (.live r)
  becomes (calls : List (Call α)) (i : Nat) (s : Slot α) : a.slots[i]? = some s →
    ∃ s', (calls.foldl after a).slots[i]? = some s' ∧ s.Becomes s'
  retired (calls : List (Call α)) (i : Nat) : a.slots[i]? = some .tombstone →
    (calls.foldl after a).slots[i]? = some .tombstone
  live_eq : a.live = (List.range a.capacity).countP (a.isLive ·)
  live_of_free (i : Nat) (b : Arena α) (r : α) : a.free i = .ok (b, some r) → b.live + 1 = a.live
  /-- In place, a call that is served does what it does to arenas as values. -/
  served_iff (c : Call α) (answer : Answer α) (b : Arena α) :
    c.perform.run a = .ok answer b ↔ a.run c = .ok (b, answer)
  /-- One that is refused has left nothing behind. -/
  refused_iff (c : Call α) (fault : GraphFault) (b : Arena α) :
    c.perform.run a = .error fault b ↔
      b = a ∧ ∃ slot, c.Misses a slot ∧ fault = .outOfRange slot

/-- An arena that follows its log is faithful to it. -/
theorem Follows.faithful (h : a.Follows log) : a.Faithful log where
  numbers_eq := h.numbers_eq
  slot_eq := h.slot_eq
  read_iff i r := by rw [read_eq_ok, h.slot_eq]
  becomes calls _ _ hs := becomes_foldl calls hs
  retired calls i hs := by
    obtain ⟨s, hs', hbecomes⟩ := becomes_foldl calls hs
    rw [hs', hbecomes.eq_tombstone]
  live_eq := h.live_eq.trans a.countP_isLive.symm
  live_of_free _ _ _ hr := h.live_of_free hr
  served_iff _ _ _ := perform_eq_ok
  refused_iff _ _ _ := by rw [perform_eq_error, run_eq_error_iff]

/-- After any calls, refused ones included, the slots are numbered in order, every slot holds what
was last put into it, and the live ones are counted. From then on a slot only goes forward, and a
call is refused exactly if the slot it names cannot serve it. -/
theorem faithful_after_calls (calls : List (Call α)) :
    (calls.foldl after empty).Faithful (calls.foldl serve (empty, [])).2 := by
  rw [← fst_foldl_serve (empty, []) calls]
  exact (Follows.foldl Follows.empty calls).faithful

/-- A reserved slot is written, changed and retired, and what is written to it then is refused. -/
example : [Call.allocate, .write 0 3, .insert 5, .modify 0 (· + 1), .free 0, .write 0 9,
    .read 1].foldl after (empty : Arena Nat) = ⟨#[.tombstone, .live 5], 1⟩ := by
  decide

end Arena

end Plexus
