import Mathlib.Data.List.Induction
import Libparc.Algol.LinkedListSteps

/-! # Calls of a linked list

A program has a list and any number of iterators over it, and calls them in any
order. What the list has to be after a call is said by a sequence of elements
and a cursor for each iterator. Every call but one keeps to it: an insertion at
index 0 in a list of two or more elements leaves a tail that is not the last
node. -/
namespace Libparc.LinkedList
open DoublyLinked Exec List Prod

variable {α : Type}

/-- The list and the state of each iterator. -/
structure State (α : Type) where
  list : PARCLinkedList α
  iterators : List Ptr

inductive Call (α : Type) where
  | append (element : α)
  | prepend (element : α)
  | insertAtIndex (index : Nat) (element : α)
  | setAtIndex (index : Nat) (element : α)
  | removeFirst
  | removeLast
  | remove (element : α)
  | removeAtIndex (index : Nat)
  | createIterator
  | next (iterator : Nat)
  | removeNext (iterator : Nat)

inductive Result (α : Type) where
  | done
  | object (object : Option α)
  | flag (result : Bool)
  deriving DecidableEq, Repr

def State.create : State α := ⟨parcLinkedListCreate, []⟩

def State.iterator (s : State α) (k : Nat) : Prog Ptr :=
  match s.iterators[k]? with
  | some node => pure node
  | none => throw .memoryFault

def Call.run (A : Allocator) (equals : α → α → Bool) (s : State α) :
    Call α → Prog (Result α × State α)
  | .append element => do
    pure (.done, { s with list := ← parcLinkedListAppend A s.list element })
  | .prepend element => do
    pure (.done, { s with list := ← parcLinkedListPrepend A s.list element })
  | .insertAtIndex index element => do
    pure (.done, { s with list := ← parcLinkedListInsertAtIndex A s.list index element })
  | .setAtIndex index element => do
    let (object, list) ← parcLinkedListSetAtIndex s.list index element
    pure (.object object, { s with list })
  | .removeFirst => do
    let (object, list) ← parcLinkedListRemoveFirst s.list
    pure (.object object, { s with list })
  | .removeLast => do
    let (object, list) ← parcLinkedListRemoveLast s.list
    pure (.object object, { s with list })
  | .remove element => do
    let (result, list) ← parcLinkedListRemove equals s.list element
    pure (.flag result, { s with list })
  | .removeAtIndex index => do
    let (object, list) ← parcLinkedListRemoveAtIndex s.list index
    pure (.object object, { s with list })
  | .createIterator => pure (.done, { s with iterators := s.iterators ++ [NULL] })
  | .next k => do
    let (node, object) ← iteratorNext s.list (← s.iterator k)
    pure (.object (some object), { s with iterators := s.iterators.set k node })
  | .removeNext k => do
    let (node, list) ← iteratorRemove s.list (← s.iterator k)
    pure (.done, ⟨list, s.iterators.set k node⟩)

/-! ## The expected sequence -/

/-- The elements, and for each iterator how many elements are up to the one it
returned last; `none` if another call removed that element. -/
structure Expected (α : Type) where
  elements : List α
  cursors : List (Option Nat)
  deriving DecidableEq, Repr

namespace Expected

def create : Expected α := ⟨[], []⟩

/-- Where a cursor is after an insertion. -/
def insertedAt (index cursor : Nat) : Option Nat :=
  some (if index < cursor then cursor + 1 else cursor)

/-- Where a cursor is after a removal. -/
def removedAt (index cursor : Nat) : Option Nat :=
  if cursor ≤ index then some cursor else if cursor = index + 1 then none else some (cursor - 1)

def insert (e : Expected α) (index : Nat) (element : α) : Expected α :=
  ⟨e.elements.insertIdx index element, e.cursors.map (·.bind (insertedAt index))⟩

def remove (e : Expected α) (index : Nat) : Expected α :=
  ⟨e.elements.eraseIdx index, e.cursors.map (·.bind (removedAt index))⟩

end Expected

/-- What a call returns and leaves. There is nothing to expect (`none`) of an
insertion beyond the end, of a call that the library itself refuses (setting an
element that is not there, going on at the end) and of an iterator whose element
is gone. -/
def Call.apply (equals : α → α → Bool) (e : Expected α) : Call α → Option (Result α × Expected α)
  | .append element => some (.done, e.insert e.elements.length element)
  | .prepend element => some (.done, e.insert 0 element)
  | .insertAtIndex index element =>
    if index ≤ e.elements.length then some (.done, e.insert index element) else none
  | .setAtIndex index element =>
    if e.elements = [] ∨ index < e.elements.length then
      some (.object e.elements[index]?, { e with elements := e.elements.set index element })
    else none
  | .removeFirst => some (.object e.elements.head?, e.remove 0)
  | .removeLast => some (.object e.elements.getLast?, e.remove (e.elements.length - 1))
  | .remove element =>
    some (.flag (e.elements.any (equals · element)),
      e.remove (e.elements.findIdx (equals · element)))
  | .removeAtIndex index => some (.object e.elements[index]?, e.remove index)
  | .createIterator => some (.done, { e with cursors := e.cursors ++ [some 0] })
  | .next k =>
    match e.cursors[k]? with
    | some (some cursor) =>
      if cursor < e.elements.length then
        some (.object e.elements[cursor]?,
          { e with cursors := e.cursors.set k (some (cursor + 1)) })
      else none
    | _ => none
  | .removeNext k =>
    match e.cursors[k]? with
    | some (some 0) => some (.done, e)
    | some (some (cursor + 1)) =>
      some (.done,
        { e.remove cursor with cursors := (e.remove cursor).cursors.set k (some cursor) })
    | _ => none

/-! ## What the list is -/

/-- A turn of a walk along one kind of links. -/
def walkBody (link : Node Ptr α → Ptr) (list : PARCLinkedList α) (s : Ptr × List (Ptr × α)) :
    Prog ((Ptr × List (Ptr × α)) ⊕ List (Ptr × α)) :=
  if s.1 = NULL then pure (.inr s.2)
  else do
    let n ← list.nodes.read s.1
    pure (.inl (link n, s.2 ++ [(s.1, n.object)]))

/-- The nodes along the next links from the head. -/
def walkForward (list : PARCLinkedList α) : Prog (List (Ptr × α)) :=
  Exec.loop (walkBody Node.next list) (list.head, [])

/-- The nodes along the previous links from the tail. -/
def walkBackward (list : PARCLinkedList α) : Prog (List (Ptr × α)) :=
  Exec.loop (walkBody Node.previous list) (list.tail, [])

/-- The list represents a sequence: both walks come to an end and give it, in
their order, head and tail are its first and last nodes, and the size is its
length. -/
def Represents (list : PARCLinkedList α) (elements : List α) : Prop :=
  ∃ nodes, walkForward list = pure nodes ∧ walkBackward list = pure nodes.reverse ∧
    nodes.map Prod.snd = elements ∧
    list.head = first NULL nodes ∧ list.tail = last NULL nodes ∧
    (list.head = NULL ↔ elements = []) ∧ (list.tail = NULL ↔ elements = []) ∧
    parcLinkedListSize list = elements.length

section
variable {l : PARCLinkedList α} {xs ys : List (Ptr × α)}

theorem walkForward_of_linked (h : Linked l.nodes.cell NULL xs NULL)
    (hh : l.head = first NULL xs) : walkForward l = pure xs := by
  suffices hl : ∀ before xs seen, Linked l.nodes.cell before xs NULL →
      Exec.loop (walkBody Node.next l) (first NULL xs, seen) = pure (seen ++ xs) by
    unfold walkForward
    rw [hh]
    exact hl NULL xs [] h
  intro before xs seen h
  induction xs generalizing before seen with
  | nil =>
    rw [append_nil]
    exact loop_done rfl
  | cons x xs ih =>
    obtain ⟨p, a⟩ := x
    have hb : walkBody Node.next l (p, seen) = pure (.inl (first NULL xs, seen ++ [(p, a)])) := by
      rw [walkBody, if_neg (Store.ne_null h.1), Store.read_of h.1, pure_bind]
    rw [first_cons, loop_next hb, ih _ _ h.2, append_assoc]
    rfl

theorem walkForward_eq (h : Threaded l xs) : walkForward l = pure xs :=
  walkForward_of_linked h.linked h.head

theorem walkBackward_eq (h : Shaped l xs) : walkBackward l = pure xs.reverse := by
  suffices hl : ∀ xs ys seen, Threaded l (xs ++ ys) →
      Exec.loop (walkBody Node.previous l) (last NULL xs, seen) = pure (seen ++ xs.reverse) by
    unfold walkBackward
    rw [h.tail]
    exact hl xs [] [] h.nil_append
  intro xs ys seen h
  induction xs using reverseRecOn generalizing ys seen with
  | nil =>
    rw [reverse_nil, append_nil]
    exact loop_done rfl
  | append_singleton xs x ih =>
    obtain ⟨p, a⟩ := x
    rw [append_assoc] at h
    have hb : walkBody Node.previous l (p, seen) =
        pure (.inl (last NULL xs, seen ++ [(p, a)])) := by
      rw [walkBody, if_neg h.ne_null_middle, Store.read_of h.cell, pure_bind]
    rw [last_append, last_cons, last_nil, loop_next hb, ih _ _ h, append_assoc, reverse_append]
    rfl

theorem Shaped.tail_eq_null (h : Shaped l xs) : l.tail = NULL ↔ xs = [] := by
  rw [h.tail]
  constructor
  · intro hn
    by_contra hxs
    obtain ⟨node, hno⟩ := h.nil_append.cell_last hxs
    exact Store.ne_null hno hn
  · rintro rfl
    rfl

theorem Shaped.represents (h : Shaped l xs) : Represents l (xs.map snd) := by
  refine ⟨xs, walkForward_eq h.toThreaded, walkBackward_eq h, rfl, h.head, h.tail, ?_, ?_, ?_⟩
  · rw [h.head_eq_null, map_eq_nil_iff]
  · rw [h.tail_eq_null, map_eq_nil_iff]
  · rw [length_map]
    exact h.size

theorem Threaded.not_represents {p q r a b c elements}
    (h : Threaded l ((p, a) :: (q, b) :: (r, c) :: xs)) (ht : l.tail = q) :
    ¬ Represents l elements := by
  rintro ⟨ns, hf, -, -, -, hl, -⟩
  rw [walkForward_eq h, pure_inj] at hf
  rw [← hf, ht, last_cons, last_cons] at hl
  have hn := (nodup_cons.mp (nodup_cons.mp h.nodup).2).1
  exact hn (hl ▸ last_mem q (cons_ne_nil _ _))

/-! ## Cursors -/

/-- Each iterator whose element is there stands at it. -/
structure Cursors (iterators : List Ptr) (cursors : List (Option Nat)) (xs : List (Ptr × α)) :
    Prop where
  length : iterators.length = cursors.length
  node : ∀ k c : Nat, cursors[k]? = some (some c) →
    c ≤ xs.length ∧ iterators[k]? = some (last NULL (xs.take c))

variable {iterators : List Ptr} {cursors : List (Option Nat)}

theorem Cursors.move (h : Cursors iterators cursors xs) {f}
    (hf : ∀ c c', c ≤ xs.length → f c = some c' →
      c' ≤ ys.length ∧ last NULL (ys.take c') = last NULL (xs.take c)) :
    Cursors iterators (cursors.map (·.bind f)) ys := by
  refine ⟨by rw [h.length, length_map], fun k c' hk => ?_⟩
  rw [getElem?_map, Option.map_eq_some_iff] at hk
  obtain ⟨cursor, hk, hb⟩ := hk
  obtain ⟨c, rfl, hc⟩ := Option.bind_eq_some_iff.mp hb
  obtain ⟨hle, hn⟩ := h.node k c hk
  obtain ⟨hle', heq⟩ := hf c c' hle hc
  exact ⟨hle', heq ▸ hn⟩

theorem last_take_insert (xs ys : List (Ptr × α)) (x : Ptr × α) {d} (hd : 0 < d)
    (hle : d ≤ ys.length) :
    last NULL ((xs ++ x :: ys).take (xs.length + 1 + d)) =
      last NULL ((xs ++ ys).take (xs.length + d)) := by
  have hne : ys.take d ≠ [] := by
    rw [Ne, ← length_eq_zero_iff, length_take]
    omega
  rw [Nat.add_assoc, take_length_add_append, take_length_add_append, Nat.add_comm 1 d,
    take_succ_cons, last_append, last_append, last_cons]
  exact last_of_ne_nil _ _ hne

theorem Cursors.insert (h : Cursors iterators cursors (xs ++ ys)) (x : Ptr × α) :
    Cursors iterators (cursors.map (·.bind (Expected.insertedAt xs.length))) (xs ++ x :: ys) := by
  refine h.move fun c c' hle hc => ?_
  rw [Expected.insertedAt, Option.some.injEq] at hc
  rw [length_append] at hle
  rw [length_append, length_cons, ← hc]
  split
  · rename_i hlt
    obtain ⟨d, rfl⟩ := Nat.exists_eq_add_of_lt hlt
    refine ⟨by omega, ?_⟩
    have := last_take_insert xs ys x (d := d + 1) (by omega) (by omega)
    simpa only [Nat.add_assoc, Nat.add_comm, Nat.add_left_comm] using this
  · rename_i hge
    have hle' : c ≤ xs.length := Nat.le_of_not_lt hge
    exact ⟨by omega, by rw [take_append_of_le_length hle', take_append_of_le_length hle']⟩

variable (h : Cursors iterators cursors xs)
include h

theorem Cursors.erase (index : Nat) :
    Cursors iterators (cursors.map (·.bind (Expected.removedAt index))) (xs.eraseIdx index) := by
  refine h.move fun c c' hle hc => ?_
  unfold Expected.removedAt at hc
  rw [eraseIdx_eq_take_drop_succ]
  split at hc
  · rename_i hle'
    cases hc
    have hle'' : c ≤ (xs.take index).length := by rw [length_take]; omega
    refine ⟨by rw [length_append]; omega, ?_⟩
    rw [take_append_of_le_length hle'', take_take, Nat.min_eq_left hle']
  · split at hc
    · cases hc
    · cases hc
      -- the cursor is beyond the element, so the element is there
      have hl : (xs.take index).length = index := by rw [length_take]; omega
      obtain ⟨d, rfl⟩ : ∃ d, c = index + 1 + (d + 1) := ⟨c - index - 2, by omega⟩
      have hi := last_take_insert (xs.take index) (xs.drop (index + 1)) xs[index]
        (d := d + 1) (by omega) (by rw [length_drop]; omega)
      rw [hl, ← drop_eq_getElem_cons, take_append_drop] at hi
      refine ⟨by rw [length_append, hl, length_drop]; omega, ?_⟩
      rw [hi]
      congr 2
      omega

theorem Cursors.set (k : Nat) {c} (hc : c ≤ xs.length) :
    Cursors (iterators.set k (last NULL (xs.take c))) (cursors.set k (some c)) xs := by
  refine ⟨by rw [length_set, length_set, h.length], fun j c' hj => ?_⟩
  by_cases hjk : k = j
  · subst hjk
    have hlt : k < cursors.length := by
      rw [← length_set (i := k) (a := some c)]
      exact (List.getElem?_eq_some_iff.mp hj).1
    rw [getElem?_set_self hlt, Option.some.injEq, Option.some.injEq] at hj
    rw [getElem?_set_self (h.length ▸ hlt), ← hj]
    exact ⟨hc, rfl⟩
  · rw [getElem?_set_ne hjk] at hj ⊢
    exact h.node j c' hj

theorem Cursors.add : Cursors (iterators ++ [NULL]) (cursors ++ [some 0]) xs := by
  refine ⟨by rw [length_append, length_append, h.length]; rfl, fun k c hk => ?_⟩
  rcases Nat.lt_or_ge k cursors.length with hlt | hge
  · rw [getElem?_append_left hlt] at hk
    rw [getElem?_append_left (h.length ▸ hlt)]
    exact h.node k c hk
  · rw [getElem?_append_right hge] at hk
    rw [getElem?_append_right (h.length ▸ hge), h.length]
    have ho : k - cursors.length < 1 := (List.getElem?_eq_some_iff.mp hk).1
    rw [Nat.lt_one_iff.mp ho] at hk ⊢
    cases hk
    exact ⟨Nat.zero_le _, rfl⟩

end

/-! ## One call -/

/-- The state is as expected. -/
def Tracks (s : State α) (e : Expected α) : Prop :=
  ∃ xs, Shaped s.list xs ∧ xs.map Prod.snd = e.elements ∧ Cursors s.iterators e.cursors xs

/-- An insertion at the head is at most in a list of one element. -/
def Call.Safe (elements : List α) : Call α → Prop
  | .insertAtIndex 0 _ => elements.length ≤ 1
  | _ => True

section
variable {A : Allocator} {eq : α → α → Bool} {s : State α} {e e' : Expected α}
  {list : PARCLinkedList α} {xs ys : List (Ptr × α)}

theorem Tracks.create : Tracks (State.create : State α) Expected.create :=
  ⟨[], Shaped.create, rfl, rfl, fun _ _ hk => by cases hk⟩

theorem Tracks.represents (h : Tracks s e) : Represents s.list e.elements := by
  obtain ⟨xs, hs, heq, -⟩ := h
  rw [← heq]
  exact hs.represents

theorem insertIdx_length_append (l r : List α) (a : α) :
    (l ++ r).insertIdx l.length a = l ++ a :: r := by
  induction l with
  | nil => rfl
  | cons x l ih => exact congrArg (x :: ·) ih

theorem Tracks.insert {q c} (hs : Shaped list (xs ++ (q, c) :: ys))
    (heq : (xs ++ ys).map snd = e.elements) (hc : Cursors s.iterators e.cursors (xs ++ ys)) :
    Tracks { s with list } (e.insert xs.length c) := by
  refine ⟨_, hs, ?_, hc.insert _⟩
  have hl : xs.length = (xs.map snd).length := (length_map _).symm
  show _ = e.elements.insertIdx xs.length c
  rw [← heq, map_append, map_append, hl, insertIdx_length_append]
  rfl

theorem Tracks.remove {i} (hs : Shaped list (xs.eraseIdx i))
    (heq : xs.map snd = e.elements) (hc : Cursors s.iterators e.cursors xs) :
    Tracks { s with list } (e.remove i) := by
  refine ⟨_, hs, ?_, hc.erase _⟩
  show _ = e.elements.eraseIdx i
  rw [← heq, eraseIdx_map]

/-- A call returns what it should; it leaves what it should exactly if it is
safe. -/
def Call.Does (A : Allocator) (equals : α → α → Bool) (s : State α) (e : Expected α)
    (call : Call α) : Prop :=
  ∀ result e', call.apply equals e = some (result, e') →
    ∃ s', call.run A equals s = pure (result, s') ∧
      (call.Safe e.elements → Tracks s' e') ∧
      (¬ call.Safe e.elements → ¬ Represents s'.list e'.elements)

/-- **An insertion at the head** of two or more elements leaves the tail at the
node that was the head. -/
theorem insertAtIndex_zero_does (h : Tracks s e) (c : α) :
    (Call.insertAtIndex 0 c).Does A eq s e := by
  intro res e' ha
  obtain ⟨rfl, rfl⟩ := ha
  obtain ⟨xs, hs, heq, hc⟩ := h
  obtain ⟨list, q, hr, ht, hta⟩ := insertAtIndex_zero hs.toThreaded c
  refine ⟨{ s with list }, ?_, fun hsa => ?_, fun hu => ?_⟩
  · rw [Call.run, hr, pure_bind]
  · have hl : xs.length ≤ 1 := by
      have hl : e.elements.length ≤ 1 := hsa
      rwa [← heq, length_map] at hl
    have hla : first q xs = last NULL ((q, c) :: xs) := by
      match xs, hl with
      | [], _ => rfl
      | [x], _ => rfl
    have hn : Shaped list ([] ++ (q, c) :: xs) := ⟨ht, hta.trans hla⟩
    exact Tracks.insert hn heq hc
  · have hl : 1 < xs.length := by
      have hl : ¬ e.elements.length ≤ 1 := hu
      rwa [← heq, length_map, Nat.not_le] at hl
    match xs, hl with
    | (p, a) :: (r, b) :: xs, _ => exact ht.not_represents hta

theorem insertAtIndex_succ_does (h : Tracks s e) (i : Nat) (c : α) :
    (Call.insertAtIndex (i + 1) c).Does A eq s e := by
  intro r e' ha
  obtain ⟨xs, hs, heq, hc⟩ := h
  have hl : e.elements.length = xs.length := by rw [← heq, length_map]
  by_cases hle : i + 1 ≤ xs.length
  · simp only [Call.apply, hl, if_pos hle, Option.some.injEq, mk.injEq] at ha
    obtain ⟨rfl, rfl⟩ := ha
    obtain ⟨list, q, hr, hnw⟩ := insertAtIndex_shaped (A := A) hs hle nofun c
    have ht : (xs.take (i + 1)).length = i + 1 := by rw [length_take]; omega
    rw [← take_append_drop (i + 1) xs] at heq hc
    refine ⟨{ s with list }, ?_, fun _ => ?_, fun hu => absurd trivial hu⟩
    · rw [Call.run, hr, pure_bind]
    · have := Tracks.insert hnw heq hc
      rwa [ht] at this
  · simp only [Call.apply, hl, if_neg hle] at ha
    cases ha

theorem Call.Does.of {call : Call α} {r} (s' : State α)
    (ha : call.apply eq e = some (r, e')) (hs : call.Safe e.elements)
    (hr : call.run A eq s = pure (r, s')) (h : Tracks s' e') : call.Does A eq s e := by
  intro r' e'' ha'
  rw [ha, Option.some.injEq, mk.injEq] at ha'
  obtain ⟨rfl, rfl⟩ := ha'
  exact ⟨s', hr, fun _ => h, fun hu => absurd hs hu⟩

theorem Call.Does.of_none {call : Call α} (ha : call.apply eq e = none) : call.Does A eq s e := by
  intro r e' ha'
  rw [ha] at ha'
  cases ha'

theorem append_does (h : Tracks s e) (c : α) : (Call.append c).Does A eq s e := by
  obtain ⟨xs, hs, heq, hc⟩ := h
  obtain ⟨list, q, hr, hn⟩ := append_eq hs c
  have hl : e.elements.length = xs.length := by rw [← heq, length_map]
  rw [← append_nil xs] at heq hc
  refine .of { s with list } rfl trivial ?_ ?_
  · rw [Call.run, hr, pure_bind]
  · rw [hl]
    exact Tracks.insert hn heq hc

theorem prepend_does (h : Tracks s e) (c : α) : (Call.prepend c).Does A eq s e := by
  obtain ⟨xs, hs, heq, hc⟩ := h
  obtain ⟨list, q, hr, hn⟩ := prepend_eq hs c
  have hn : Shaped list ([] ++ (q, c) :: xs) := hn
  refine .of _ rfl trivial ?_ (Tracks.insert hn heq hc)
  rw [Call.run, hr, pure_bind]

theorem Tracks.set {i c} (hlt : i < xs.length) (hs : Shaped list (xs.set i (xs[i].1, c)))
    (heq : xs.map snd = e.elements) (hc : Cursors s.iterators e.cursors xs) :
    Tracks { s with list } { e with elements := e.elements.set i c } := by
  have ha : addresses (xs.set i (xs[i].1, c)) = addresses xs := by
    have hlt' : i < (xs.map fst).length := by rwa [length_map]
    have hg : (xs.map fst)[i] = xs[i].1 := getElem_map _
    unfold addresses
    rw [map_set, ← hg, set_getElem_self]
  refine ⟨_, hs, ?_, hc.length, fun k cursor hk => ?_⟩
  · rw [map_set, heq]
  · obtain ⟨hle, hn⟩ := hc.node k cursor hk
    rw [length_set, hn]
    refine ⟨hle, ?_⟩
    rw [last_eq, last_eq, addresses_take, addresses_take, ha]

section
variable (h : Tracks s e)
include h

theorem setAtIndex_does (index : Nat) (c : α) : (Call.setAtIndex index c).Does A eq s e := by
  obtain ⟨xs, hs, heq, hc⟩ := h
  by_cases hin : e.elements = [] ∨ index < e.elements.length
  · by_cases hlt : index < xs.length
    · have hl : (xs.take index).length = index := by rw [length_take]; omega
      have hsp := hs
      rw [← take_append_drop index xs, drop_eq_getElem_cons hlt] at hsp
      obtain ⟨list, hr, hn⟩ := setAtIndex_eq hsp c
      rw [hl] at hr
      have hn : Shaped list (xs.set index (xs[index].1, c)) := by
        rw [set_eq_take_append_cons_drop, if_pos hlt]
        exact hn
      refine .of _ (if_pos hin) trivial ?_ (Tracks.set hlt hn heq hc)
      rw [Call.run, hr, pure_bind, ← heq, getElem?_map, getElem?_eq_getElem hlt]
      rfl
    · have hni : e.elements = [] := by
        refine hin.resolve_right fun hlt' => hlt ?_
        rwa [← heq, length_map] at hlt'
      have hxs : xs = [] := map_eq_nil_iff.mp (heq.trans hni)
      subst hxs
      refine .of s (if_pos hin) trivial ?_ ⟨[], hs, ?_, hc⟩
      · rw [Call.run, setAtIndex_nil hs, pure_bind, hni]
        rfl
      · rw [hni]
        rfl
  · exact .of_none (if_neg hin)

theorem removeFirst_does : (Call.removeFirst : Call α).Does A eq s e := by
  obtain ⟨xs, hs, heq, hc⟩ := h
  obtain ⟨list, hr, ht, hta⟩ := removeFirst_eq hs.toThreaded
  have hn : Shaped list (xs.eraseIdx 0) := by
    rw [eraseIdx_zero]
    exact ⟨ht, hta hs.tail⟩
  refine .of _ rfl trivial ?_ (Tracks.remove hn heq hc)
  rw [Call.run, hr, pure_bind, ← heq, head?_map]

theorem removeLast_does : (Call.removeLast : Call α).Does A eq s e := by
  obtain ⟨xs, hs, heq, hc⟩ := h
  obtain ⟨list, hr, hn⟩ := removeLast_eq hs
  have hl : xs.length = e.elements.length := by rw [← heq, length_map]
  rw [← eraseIdx_length_sub_one, hl] at hn
  refine .of _ rfl trivial ?_ (Tracks.remove hn heq hc)
  rw [Call.run, hr, pure_bind, ← heq, getLast?_map]

theorem remove_does (c : α) : (Call.remove c).Does A eq s e := by
  obtain ⟨xs, hs, heq, hc⟩ := h
  obtain ⟨list, hr, hn⟩ := remove_eq hs eq c
  have hi : (xs.findIdx fun x => eq x.2 c) = e.elements.findIdx (eq · c) := by
    rw [← heq, findIdx_map]
    rfl
  rw [hi] at hn
  refine .of _ rfl trivial ?_ (Tracks.remove hn heq hc)
  rw [Call.run, hr, pure_bind, ← heq, any_map]
  rfl

theorem removeAtIndex_does (i : Nat) : (Call.removeAtIndex i : Call α).Does A eq s e := by
  obtain ⟨xs, hs, heq, hc⟩ := h
  obtain ⟨list, hr, hn⟩ := removeAtIndex_eq hs i
  refine .of _ rfl trivial ?_ (Tracks.remove hn heq hc)
  rw [Call.run, hr, pure_bind, ← heq, getElem?_map]

theorem createIterator_does : (Call.createIterator : Call α).Does A eq s e := by
  obtain ⟨xs, hs, heq, hc⟩ := h
  exact .of _ rfl trivial rfl ⟨xs, hs, heq, hc.add⟩

end

theorem iterator_eq {k c} (hc : Cursors s.iterators e.cursors xs)
    (hk : e.cursors[k]? = some (some c)) : s.iterator k = pure (last NULL (xs.take c)) := by
  unfold State.iterator
  rw [(hc.node k c hk).2]

theorem last_take_succ {c} (hlt : c < xs.length) : last NULL (xs.take (c + 1)) = xs[c].1 := by
  rw [take_succ_eq_append_getElem hlt, last_append]
  rfl

theorem next_does (h : Tracks s e) (k : Nat) : (Call.next k : Call α).Does A eq s e := by
  obtain ⟨xs, hs, heq, hc⟩ := h
  match hk : e.cursors[k]? with
  | none | some none => exact .of_none (by rw [Call.apply, hk])
  | some (some c) =>
    by_cases hlt : c < e.elements.length
    · have hlt' : c < xs.length := by rwa [← heq, length_map] at hlt
      have hsp := hs.toThreaded
      rw [← take_append_drop c xs, drop_eq_getElem_cons hlt'] at hsp
      have ha : (Call.next k).apply eq e = some (.object e.elements[c]?,
          { e with cursors := e.cursors.set k (some (c + 1)) }) := by
        simp only [Call.apply, hk, if_pos hlt]
      refine .of ⟨s.list, s.iterators.set k (last NULL (xs.take (c + 1)))⟩ ha trivial ?_
        ⟨xs, hs, heq, hc.set k hlt'⟩
      rw [Call.run, iterator_eq hc hk, pure_bind, iteratorNext_eq hsp, pure_bind, ← heq,
        getElem?_map, getElem?_eq_getElem hlt', last_take_succ hlt']
      rfl
    · exact .of_none (by simp only [Call.apply, hk]; exact if_neg hlt)

theorem removeNext_does (h : Tracks s e) (k : Nat) :
    (Call.removeNext k : Call α).Does A eq s e := by
  obtain ⟨xs, hs, heq, hc⟩ := h
  match hk : e.cursors[k]? with
  | none | some none => exact .of_none (by rw [Call.apply, hk])
  | some (some 0) =>
    have hse : s.iterators.set k NULL = s.iterators := by
      obtain ⟨hlt, hn⟩ := List.getElem?_eq_some_iff.mp (hc.node k 0 hk).2
      have hn : s.iterators[k] = NULL := hn
      rw [← hn, set_getElem_self]
    have ha : (Call.removeNext k).apply eq e = some (.done, e) := by
      rw [Call.apply, hk]
    refine .of s ha trivial ?_ ⟨xs, hs, heq, hc⟩
    rw [Call.run, iterator_eq hc hk, pure_bind]
    show (pure (.done, ⟨s.list, s.iterators.set k NULL⟩) : Prog (Result α × State α)) = _
    rw [hse]
  | some (some (c + 1)) =>
    have hlt : c < xs.length := (hc.node k (c + 1) hk).1
    have hsp := hs
    rw [← take_append_drop c xs, drop_eq_getElem_cons hlt] at hsp
    obtain ⟨list, hr, ht, hta⟩ := iteratorRemove_eq hsp.toThreaded
    have hne : Shaped list (xs.eraseIdx c) := by
      rw [eraseIdx_eq_take_drop_succ]
      exact ⟨ht, hta hsp.tail⟩
    have htk : xs.take c = (xs.eraseIdx c).take c := by
      rw [take_eraseIdx_eq_take_of_le _ _ _ (Nat.le_refl c)]
    have hse := (hc.erase c).set k (c := c) (by
      rw [length_eraseIdx_of_lt hlt]
      omega)
    rw [← htk] at hse
    have ha : (Call.removeNext k).apply eq e = some (.done,
        { e.remove c with cursors := (e.remove c).cursors.set k (some c) }) := by
      rw [Call.apply, hk]
    have he : (xs.eraseIdx c).map snd = e.elements.eraseIdx c := by
      rw [← heq, eraseIdx_map]
    refine .of ⟨list, s.iterators.set k (last NULL (xs.take c))⟩ ha trivial ?_ ⟨_, hne, he, hse⟩
    rw [Call.run, iterator_eq hc hk, pure_bind, last_take_succ hlt]
    rw [get_eq_getElem] at hr
    rw [hr, pure_bind]

/-- **Every call** returns what it should, and leaves what it should if it is
safe. -/
theorem Call.does (h : Tracks s e) (call : Call α) : call.Does A eq s e := by
  cases call with
  | append c => exact append_does h c
  | prepend c => exact prepend_does h c
  | insertAtIndex i c =>
    cases i with
    | zero => exact insertAtIndex_zero_does h c
    | succ i => exact insertAtIndex_succ_does h i c
  | setAtIndex i c => exact setAtIndex_does h i c
  | removeFirst => exact removeFirst_does h
  | removeLast => exact removeLast_does h
  | remove c => exact remove_does h c
  | removeAtIndex i => exact removeAtIndex_does h i
  | createIterator => exact createIterator_does h
  | next k => exact next_does h k
  | removeNext k => exact removeNext_does h k

end

/-! ## Runs of calls -/

/-- After every call the list represents the expected sequence, and the call
returned what was expected; as long as there is something to expect. -/
def AlwaysRepresents (A : Allocator) (equals : α → α → Bool) :
    State α → Expected α → List (Call α) → Prop
  | _, _, [] => True
  | s, e, call :: calls =>
    ∀ result e', call.apply equals e = some (result, e') →
      ∃ s', call.run A equals s = pure (result, s') ∧ Represents s'.list e'.elements ∧
        AlwaysRepresents A equals s' e' calls

/-- No insertion of the run is at the head of two or more elements. -/
def SafeCalls (equals : α → α → Bool) : Expected α → List (Call α) → Prop
  | _, [] => True
  | e, call :: calls =>
    ∀ result e', call.apply equals e = some (result, e') →
      call.Safe e.elements ∧ SafeCalls equals e' calls

theorem Tracks.alwaysRepresents_iff {A equals s e} (h : Tracks s e) (calls : List (Call α)) :
    AlwaysRepresents A equals s e calls ↔ SafeCalls equals e calls := by
  induction calls generalizing s e with
  | nil => exact Iff.rfl
  | cons call calls ih =>
    refine forall₂_congr fun r e' => imp_congr_right fun ha => ?_
    obtain ⟨s', hr, hs, hu⟩ := call.does h r e' ha
    constructor
    · rintro ⟨s'', hr', hre, hc⟩
      rw [hr, pure_inj, mk.injEq] at hr'
      obtain ⟨-, rfl⟩ := hr'
      have hca : call.Safe e.elements := by
        by_contra hn
        exact hu hn hre
      exact ⟨hca, (ih (hs hca)).mp hc⟩
    · rintro ⟨hca, hc⟩
      have ht := hs hca
      exact ⟨s', hr, ht.represents, (ih ht).mpr hc⟩

/-- **The list represents the expected sequence** after every call of a run, from
the empty list, exactly if no insertion of the run is at the head of two or more
elements. -/
theorem calls_represent_iff (A : Allocator) (equals : α → α → Bool) (calls : List (Call α)) :
    AlwaysRepresents A equals State.create Expected.create calls ↔
      SafeCalls equals Expected.create calls :=
  Tracks.create.alwaysRepresents_iff calls

/-- Two elements and one at the head: the tail is the middle node, and the way
back from it misses the last one. -/
theorem insertAtIndex_head_moves_tail :
    ∃ s : State Nat, (do
        let (_, s) ← (Call.append 2).run Allocator.bump (· == ·) State.create
        let (_, s) ← (Call.append 3).run Allocator.bump (· == ·) s
        let (_, s) ← (Call.insertAtIndex 0 1).run Allocator.bump (· == ·) s
        pure s : Prog (State Nat)) = pure s ∧
      walkForward s.list = pure [(4, 1), (1, 2), (2, 3)] ∧
      walkBackward s.list = pure [(1, 2), (4, 1)] ∧ ¬ Represents s.list [1, 2, 3] := by
  refine ⟨_, rfl, ?_, and_iff_left_of_imp ?_ |>.mpr ?_⟩
  · exact (loop_next rfl).trans ((loop_next rfl).trans ((loop_next rfl).trans (loop_done rfl)))
  · rintro hb ⟨ns, -, hr, he, -⟩
    rw [hb, pure_inj] at hr
    have hl := congrArg List.length he
    rw [List.length_map, ← List.length_reverse, ← hr] at hl
    cases hl
  · exact (loop_next rfl).trans ((loop_next rfl).trans (loop_done rfl))

end Libparc.LinkedList
