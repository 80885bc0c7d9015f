import Libparc.Algol.LinkedList

/-! # What the operations of a linked list do

Each operation has one statement about the sequence of the nodes. The place an
operation is about splits that sequence: it is between two parts, or it is the
node that the second part starts with. -/
namespace Libparc.LinkedList
open DoublyLinked Store List Exec Prod

variable {α : Type} {A : Allocator} {l : PARCLinkedList α} {xs ys : List (Ptr × α)} {p : Ptr}
  {a c : α}

/-- The tail is the last node, too. -/
structure Shaped (list : PARCLinkedList α) (xs : List (Ptr × α)) : Prop extends
    Threaded list xs where
  tail : list.tail = last NULL xs

theorem Shaped.create : Shaped (parcLinkedListCreate : PARCLinkedList α) [] :=
  ⟨Threaded.create, rfl⟩

theorem Threaded.step (h : Threaded l (xs ++ (p, a) :: ys)) :
    Threaded l (xs ++ [(p, a)] ++ ys) := by
  rw [append_assoc]
  exact h

theorem Threaded.ne_null_middle (h : Threaded l (xs ++ (p, a) :: ys)) : p ≠ NULL :=
  Store.ne_null h.cell

/-! ## Walking -/

theorem nodeGetByIndex_eq (h : Threaded l (xs ++ ys)) (index : Nat) :
    nodeGetByIndex l index (first NULL ys) = pure (first NULL (ys.drop index)) := by
  induction index generalizing xs ys with
  | zero => rfl
  | succ index ih =>
    cases ys with
    | nil => rfl
    | cons y ys =>
      rw [first_cons, nodeGetByIndex, if_neg h.ne_null_middle, read_of h.cell, pure_bind]
      exact ih h.step

variable {i : Nat} {ns : Store (Node Ptr α)}

theorem walkTo_eq (h : Threaded l (xs ++ ys)) (hi : i < ys.length) :
    walkTo l i (first NULL ys) = pure (first NULL (ys.drop i)) := by
  induction i generalizing xs ys with
  | zero => rfl
  | succ i ih =>
    obtain ⟨⟨p, b⟩, ys, rfl⟩ := exists_cons_of_length_pos (Nat.zero_lt_of_lt hi)
    have hlt : i < ys.length := Nat.lt_of_succ_lt_succ hi
    obtain ⟨⟨q, d⟩, zs, rfl⟩ := exists_cons_of_length_pos (Nat.zero_lt_of_lt hlt)
    rw [first_cons, walkTo, read_of h.cell, pure_bind]
    show (if q ≠ NULL then walkTo l i q else pure p) = _
    rw [if_pos h.step.ne_null_middle]
    exact ih h.step hlt

theorem nodeGetByValue_eq (h : Threaded l xs) (equals : α → α → Bool) (v : α) :
    nodeGetByValue equals l v = pure (first NULL (xs.drop (xs.findIdx fun x => equals x.2 v))) := by
  suffices hl : ∀ xs ys, Threaded l (xs ++ ys) →
      loop (nodeGetByValueBody equals l v) (first NULL ys) =
        pure (first NULL (ys.drop (ys.findIdx fun x => equals x.2 v))) by
    unfold nodeGetByValue
    rw [h.head]
    exact hl [] xs h
  intro xs ys h
  induction ys generalizing xs with
  | nil => exact loop_done rfl
  | cons y ys ih =>
    obtain ⟨p, b⟩ := y
    have hb : nodeGetByValueBody equals l v p =
        if equals b v then pure (.inr p) else pure (.inl (first NULL ys)) := by
      rw [nodeGetByValueBody, if_neg h.ne_null_middle, read_of h.cell, pure_bind]
    cases heq : equals b v with
    | true =>
      rw [heq] at hb
      rw [findIdx_cons, heq]
      exact loop_done hb
    | false =>
      rw [heq] at hb
      rw [findIdx_cons, heq]
      exact (loop_next hb).trans (ih _ h.step)

/-! ## Inserting -/

theorem setNext_of {head tail next size node} (hp : ns.cell p = some node) :
    setNext ⟨ns, head, tail, size⟩ p next =
      pure ⟨ns.modify p fun n => { n with next }, head, tail, size⟩ := by
  rw [setNext, write_of hp, pure_bind]

theorem setPrevious_of {head tail previous size node} (hp : ns.cell p = some node) :
    setPrevious ⟨ns, head, tail, size⟩ p previous =
      pure ⟨ns.modify p fun n => { n with previous }, head, tail, size⟩ := by
  rw [setPrevious, write_of hp, pure_bind]

theorem nodeCreate_eq {prev next q} (hn : l.nodes.allocate A ⟨c, prev, next⟩ = (ns, q)) :
    nodeCreate A l c prev next = (⟨ns, l.head, l.tail, l.size⟩, q) := by
  rw [nodeCreate, hn]

theorem insertAtIndex_zero (h : Threaded l xs) (c : α) :
    ∃ l' q, parcLinkedListInsertAtIndex A l 0 c = pure l' ∧
      Threaded l' ((q, c) :: xs) ∧ l'.tail = first q xs := by
  obtain ⟨⟨ns, q⟩, hn⟩ : ∃ new, l.nodes.allocate A ⟨c, NULL, first NULL xs⟩ = new := ⟨_, rfl⟩
  have hi : Threaded ⟨ns.modify (first NULL xs) fun n => { n with previous := q },
      q, first q xs, l.size + 1⟩ ((q, c) :: xs) := by
    have h' : Threaded l ([] ++ xs) := h
    have hi := @Threaded.insert _ _ _ _ _ _ h' _ _ (first q xs) hn
    rwa [last_nil, modify_null] at hi
  refine ⟨_, q, ?_, hi, rfl⟩
  unfold parcLinkedListInsertAtIndex
  cases xs with
  | nil =>
    rw [first_nil] at hn
    rw [if_pos rfl, if_pos (h.head_eq_null.mpr rfl), nodeCreate_eq hn, first_nil, modify_null]
    rfl
  | cons x xs =>
    obtain ⟨p, b⟩ := x
    have h' : Threaded l ([] ++ (p, b) :: xs) := h
    rw [first_cons] at hn
    rw [if_pos rfl, h.head, first_cons, if_neg h'.ne_null_middle, nodeCreate_eq hn]
    show (setPrevious ⟨ns, l.head, l.tail, l.size⟩ l.head q >>= fun l => _) = _
    rw [h.head, first_cons, setPrevious_of (cell_old hn h'.cell), pure_bind]
    rfl

section
variable (h : Threaded l (xs ++ ys)) (hxs : xs ≠ [])
include h hxs

theorem Threaded.cell_last : ∃ node, l.nodes.cell (last NULL xs) = some node := by
  refine h.linked.isSome ?_
  rw [addresses_append]
  exact mem_append_left _ (last_mem NULL hxs)

theorem Threaded.head_of_ne_nil (q : Ptr) : first q xs = l.head := by
  obtain ⟨x, xs, rfl⟩ := exists_cons_of_ne_nil hxs
  exact h.head.symm

theorem insertAtIndex_middle (hys : ys ≠ []) (c : α) :
    ∃ l' q, parcLinkedListInsertAtIndex A l xs.length c = pure l' ∧
      Threaded l' (xs ++ (q, c) :: ys) ∧ l'.tail = l.tail := by
  obtain ⟨⟨p, b⟩, ys, rfl⟩ := exists_cons_of_ne_nil hys
  obtain ⟨⟨ns, q⟩, hn⟩ : ∃ new, l.nodes.allocate A ⟨c, last NULL xs, p⟩ = new := ⟨_, rfl⟩
  have hi := @Threaded.insert _ _ _ _ _ _ h _ _ l.tail hn
  obtain ⟨node, hno⟩ := h.cell_last hxs
  rw [h.head_of_ne_nil hxs] at hi
  have hl := cell_old hn hno
  have hz : xs.length ≠ 0 := fun hle => hxs (length_eq_zero_iff.mp hle)
  have hs : xs.length ≠ l.size := by
    rw [h.size, length_append, length_cons]
    omega
  have hw : walkTo l xs.length l.head = pure p := by
    have h' : Threaded l ([] ++ (xs ++ (p, b) :: ys)) := h
    rw [h.head, walkTo_eq h' (by simp), drop_left, first_cons]
  have hp : ∃ node, (ns.modify (last NULL xs) fun n => { n with next := q }).cell p = some node :=
    (live_modify (.inr ⟨_, cell_old hn h.cell⟩)).resolve_left h.ne_null_middle
  obtain ⟨node', hn'⟩ := hp
  refine ⟨_, q, ?_, hi, rfl⟩
  unfold parcLinkedListInsertAtIndex
  rw [if_neg hz, if_neg hs, hw, pure_bind, read_of h.cell, pure_bind]
  rw [first_cons, nodeCreate_eq hn]
  show (setNext ⟨ns, l.head, l.tail, l.size⟩ (last NULL xs) q >>= fun l => _) = _
  rw [setNext_of hl, pure_bind, setPrevious_of hn', pure_bind]

end

theorem last_of_ne_nil (p q : Ptr) (h : xs ≠ []) : last p xs = last q xs := by
  obtain ⟨x, xs, rfl⟩ := exists_cons_of_ne_nil h
  rfl

theorem insertAtIndex_take (h : Threaded l xs) (hi : i < xs.length ∨ i = 0) (c : α) :
    ∃ l' q, parcLinkedListInsertAtIndex A l i c = pure l' ∧
      Threaded l' (xs.take i ++ (q, c) :: xs.drop i) ∧
      l'.tail = if i = 0 then first q xs else l.tail := by
  cases i with
  | zero =>
    obtain ⟨l', q, hr, h', ht⟩ := insertAtIndex_zero h c
    exact ⟨l', q, hr, h', ht⟩
  | succ i =>
    have hta : (xs.take (i + 1)).length = i + 1 := by rw [length_take]; omega
    have hdrop : (xs.drop (i + 1)).length ≠ 0 := by rw [length_drop]; omega
    have h' : Threaded l (xs.take (i + 1) ++ xs.drop (i + 1)) := by
      rwa [take_append_drop]
    obtain ⟨l', q, hr, hn, ht⟩ := insertAtIndex_middle h' (fun hni => by rw [hni] at hta; cases hta)
      (fun hni => hdrop (by rw [hni]; rfl)) c
    rw [hta] at hr
    exact ⟨l', q, hr, hn, ht⟩

section
variable (h : Shaped l xs)
include h

theorem Shaped.nil_append : Threaded l (xs ++ []) := by
  rw [append_nil]
  exact h.toThreaded

theorem Shaped.insert_last {q}
    (hn : l.nodes.allocate A ⟨c, last NULL xs, NULL⟩ = (ns, q)) :
    Shaped ⟨ns.modify (last NULL xs) fun n => { n with next := q }, first q xs, q,
      l.size + 1⟩ (xs ++ [(q, c)]) := by
  have hi := @Threaded.insert _ _ _ _ _ _ h.nil_append _ _ q hn
  rw [first_nil, modify_null] at hi
  exact ⟨hi, by rw [last_append]; rfl⟩

theorem append_eq (c : α) :
    ∃ l' q, parcLinkedListAppend A l c = pure l' ∧ Shaped l' (xs ++ [(q, c)]) := by
  obtain ⟨⟨ns, q⟩, hn⟩ : ∃ new, l.nodes.allocate A ⟨c, last NULL xs, NULL⟩ = new := ⟨_, rfl⟩
  refine ⟨_, q, ?_, h.insert_last hn⟩
  unfold parcLinkedListAppend
  rw [h.tail, nodeCreate_eq hn, h.tail]
  by_cases hxs : xs = []
  · subst hxs
    rw [h.head, last_nil, modify_null]
    rfl
  · obtain ⟨node, hno⟩ := h.nil_append.cell_last hxs
    have hh : l.head ≠ NULL := fun heq => hxs (h.head_eq_null.mp heq)
    dsimp only
    rw [if_neg (ne_null hno), setNext_of (cell_old hn hno), pure_bind, pure_bind,
      if_neg hh, h.nil_append.head_of_ne_nil hxs]

theorem insertAtIndex_size (hxs : xs ≠ []) (c : α) :
    ∃ l' q, parcLinkedListInsertAtIndex A l xs.length c = pure l' ∧ Shaped l' (xs ++ [(q, c)]) := by
  obtain ⟨⟨ns, q⟩, hn⟩ : ∃ new, l.nodes.allocate A ⟨c, last NULL xs, NULL⟩ = new := ⟨_, rfl⟩
  obtain ⟨node, hno⟩ := h.nil_append.cell_last hxs
  have hz : xs.length ≠ 0 := fun hl => hxs (length_eq_zero_iff.mp hl)
  refine ⟨_, q, ?_, h.insert_last hn⟩
  unfold parcLinkedListInsertAtIndex
  rw [if_neg hz, if_pos h.size.symm, h.tail]
  dsimp only
  rw [nodeCreate_eq hn, setNext_of (cell_old hn hno), pure_bind, h.nil_append.head_of_ne_nil hxs]

theorem insertAtIndex_shaped (hle : i ≤ xs.length) (hi : i = 0 → xs.length ≤ 1) (c : α) :
    ∃ l' q, parcLinkedListInsertAtIndex A l i c = pure l' ∧
      Shaped l' (xs.take i ++ (q, c) :: xs.drop i) := by
  by_cases hin : i < xs.length ∨ i = 0
  · obtain ⟨l', q, hr, hn, ht⟩ := insertAtIndex_take h.toThreaded hin c
    refine ⟨l', q, hr, hn, ht.trans ?_⟩
    split
    · rename_i hz
      subst hz
      match xs, hi rfl with
      | [], _ => rfl
      | [x], _ => rfl
    · have hdrop : xs.drop i ≠ [] := fun hn => by
        have := drop_eq_nil_iff.mp hn
        omega
      rw [h.tail, last_append, last_cons]
      conv => lhs; rw [← take_append_drop i xs, last_append]
      exact last_of_ne_nil _ _ hdrop
  · obtain rfl : i = xs.length := by omega
    obtain ⟨l', q, hr, hn⟩ := insertAtIndex_size h (fun hxs => hin (.inr (by rw [hxs]; rfl))) c
    rw [take_length, drop_length]
    exact ⟨l', q, hr, hn⟩

theorem prepend_eq (c : α) :
    ∃ l' q, parcLinkedListPrepend A l c = pure l' ∧ Shaped l' ((q, c) :: xs) := by
  obtain ⟨⟨ns, q⟩, hn⟩ : ∃ new, l.nodes.allocate A ⟨c, NULL, first NULL xs⟩ = new := ⟨_, rfl⟩
  have h' : Threaded l ([] ++ xs) := h.toThreaded
  have hi := @Threaded.insert _ _ _ _ _ _ h' _ _ (last q xs) hn
  rw [last_nil, modify_null] at hi
  refine ⟨_, q, ?_, ⟨hi, rfl⟩⟩
  unfold parcLinkedListPrepend
  rw [h.head, nodeCreate_eq hn, h.head]
  cases xs with
  | nil =>
    rw [h.tail, first_nil, modify_null]
    rfl
  | cons x xs =>
    have ht : l.tail ≠ NULL := by
      obtain ⟨node, hno⟩ := h.nil_append.cell_last (cons_ne_nil _ _)
      rw [h.tail]
      exact ne_null hno
    dsimp only
    rw [first_cons, if_neg h'.ne_null_middle, setPrevious_of (cell_old hn h'.cell),
      pure_bind, pure_bind, if_neg ht, h.tail]
    rfl

end

/-! ## Removing -/

/-- A removal leaves the tail at the last node if it was there. -/
def TailKept (list : PARCLinkedList α) (xs : List (Ptr × α)) (list' : PARCLinkedList α)
    (xs' : List (Ptr × α)) : Prop :=
  list.tail = last NULL xs → list'.tail = last NULL xs'

theorem tailKept_delete {l'} (h : Threaded l (xs ++ (p, a) :: ys))
    (ht : l'.tail = if p = l.tail then last NULL xs else l.tail) :
    TailKept l (xs ++ (p, a) :: ys) l' (xs ++ ys) := by
  intro heq
  rw [ht, heq, last_append, last_append, last_cons]
  by_cases hys : ys = []
  · rw [hys, last_nil, if_pos rfl, last_nil]
  · have hn : p ∉ addresses ys := by
      have hno := h.nodup
      rw [addresses_append, addresses_cons] at hno
      exact (nodup_cons.mp (nodup_append.mp hno).2.1).1
    have hne : p ≠ last p ys := fun heq => hn (heq ▸ last_mem p hys)
    rw [if_neg hne]
    exact last_of_ne_nil _ _ hys

theorem deleteIfAny_first (h : Threaded l (xs ++ ys)) :
    ∃ l', deleteIfAny l (first NULL ys) = pure (ys.head?.map snd, l') ∧
      Threaded l' (xs ++ ys.tail) ∧ TailKept l (xs ++ ys) l' (xs ++ ys.tail) := by
  cases ys with
  | nil => exact ⟨l, rfl, h, id⟩
  | cons y ys =>
    obtain ⟨l', hr, h', ht⟩ := h.delete
    refine ⟨l', ?_, h', tailKept_delete h ht⟩
    unfold deleteIfAny
    rw [first_cons, if_pos h.ne_null_middle, hr]
    rfl

theorem deleteIfAny_drop (h : Shaped l xs) (i : Nat) :
    ∃ l', deleteIfAny l (first NULL (xs.drop i)) = pure (xs[i]?.map snd, l') ∧
      Shaped l' (xs.eraseIdx i) := by
  have h' : Shaped l (xs.take i ++ xs.drop i) := by rwa [take_append_drop]
  obtain ⟨l', hr, ht, hta⟩ := deleteIfAny_first h'.toThreaded
  rw [tail_drop, ← eraseIdx_eq_take_drop_succ] at ht hta
  rw [head?_drop] at hr
  exact ⟨l', hr, ht, hta h'.tail⟩

theorem removeAtIndex_eq (h : Shaped l xs) (i : Nat) :
    ∃ l', parcLinkedListRemoveAtIndex l i = pure (xs[i]?.map snd, l') ∧
      Shaped l' (xs.eraseIdx i) := by
  have h' : Threaded l ([] ++ xs) := h.toThreaded
  unfold parcLinkedListRemoveAtIndex
  rw [h.head, nodeGetByIndex_eq h' i, pure_bind]
  exact deleteIfAny_drop h i

theorem removeFirst_eq (h : Threaded l xs) :
    ∃ l', parcLinkedListRemoveFirst l = pure (xs.head?.map snd, l') ∧
      Threaded l' xs.tail ∧ TailKept l xs l' xs.tail := by
  have h' : Threaded l ([] ++ xs) := h
  unfold parcLinkedListRemoveFirst
  rw [h.head]
  exact deleteIfAny_first h'

theorem removeLast_eq (h : Shaped l xs) :
    ∃ l', parcLinkedListRemoveLast l = pure (xs.getLast?.map snd, l') ∧
      Shaped l' xs.dropLast := by
  have hl : last NULL xs = first NULL (xs.drop (xs.length - 1)) := by
    rcases eq_nil_or_concat xs with rfl | ⟨ys, ⟨p, a⟩, rfl⟩
    · rfl
    · simp [last_append]
  obtain ⟨l', hr, h'⟩ := deleteIfAny_drop h (xs.length - 1)
  rw [← getLast?_eq_getElem?] at hr
  rw [eraseIdx_length_sub_one] at h'
  unfold parcLinkedListRemoveLast
  rw [h.tail, hl]
  exact ⟨l', hr, h'⟩

theorem remove_eq (h : Shaped l xs) (equals : α → α → Bool) (element : α) :
    ∃ l', parcLinkedListRemove equals l element = pure (xs.any fun x => equals x.2 element, l') ∧
      Shaped l' (xs.eraseIdx (xs.findIdx fun x => equals x.2 element)) := by
  obtain ⟨l', hr, h'⟩ := deleteIfAny_drop h (xs.findIdx fun x => equals x.2 element)
  have ha : xs[xs.findIdx fun x => equals x.2 element]?.isSome =
      xs.any fun x => equals x.2 element := by
    rw [Bool.eq_iff_iff, isSome_getElem?, findIdx_lt_length, any_eq_true]
  refine ⟨l', ?_, h'⟩
  unfold parcLinkedListRemove
  rw [nodeGetByValue_eq h.toThreaded, pure_bind, hr, pure_bind]
  dsimp only
  rw [Option.isSome_map, ha]

/-! ## Getting and setting an element -/

theorem trapIfIndexExceedsSize_of (h : l.size = 0 ∨ i < l.size) :
    trapIfIndexExceedsSize l i = pure () := by
  refine trapOutOfBoundsIf_of_not fun hexceeds => ?_
  omega

theorem getAtIndex_eq (h : Threaded l xs) (hlt : i < xs.length) :
    parcLinkedListGetAtIndex l i = pure (some xs[i].2) := by
  have h' : Threaded l ([] ++ xs) := h
  have hs := h
  obtain ⟨⟨p, a⟩, hx⟩ : ∃ x, xs[i] = x := ⟨_, rfl⟩
  rw [← take_append_drop i xs, drop_eq_getElem_cons hlt, hx] at hs
  unfold parcLinkedListGetAtIndex
  rw [trapIfIndexExceedsSize_of (.inr (h.size.symm ▸ hlt)), pure_bind, h.head,
    nodeGetByIndex_eq h' i, pure_bind, drop_eq_getElem_cons hlt, hx, first_cons,
    if_neg hs.ne_null_middle, read_of hs.cell, pure_bind]

theorem Threaded.set (h : Threaded l (xs ++ (p, a) :: ys)) (c : α) :
    Threaded { l with nodes := l.nodes.modify p fun n => { n with object := c } }
      (xs ++ (p, c) :: ys) := by
  have hn := h.nodup
  rw [addresses_append, addresses_cons, nodup_middle] at hn
  obtain ⟨hno, -⟩ := nodup_cons.mp hn
  have ho : ∀ q, q ≠ p → (l.nodes.modify p fun n => { n with object := c }).cell q =
      l.nodes.cell q := fun q hq => by rw [cell_modify, if_neg hq]
  obtain ⟨hxs, hp, hys⟩ := linked_append.mp h.linked
  refine ⟨linked_append.mpr ⟨?_, ?_, ?_⟩, ?_, ?_, ?_⟩
  · refine hxs.congr fun q hq => ho q fun heq => ?_
    exact hno (mem_append_left _ (heq ▸ hq))
  · rw [cell_modify, if_pos rfl, hp]
    rfl
  · refine hys.congr fun q hq => ho q fun heq => ?_
    exact hno (mem_append_right _ (heq ▸ hq))
  · rw [addresses_append, addresses_cons, nodup_middle]
    exact hn
  · rw [h.head, first_append, first_append]
    rfl
  · rw [h.size, length_append, length_append]
    rfl

theorem setAtIndex_nil (h : Shaped l []) (i : Nat) (c : α) :
    parcLinkedListSetAtIndex l i c = pure (none, l) := by
  have h' : Threaded l ([] ++ []) := h.toThreaded
  have hg := nodeGetByIndex_eq h' i
  unfold parcLinkedListSetAtIndex
  rw [trapIfIndexExceedsSize_of (.inl h.size), pure_bind, h.head, hg, pure_bind, drop_nil]
  rfl

theorem setAtIndex_eq (h : Shaped l (xs ++ (p, a) :: ys)) (c : α) :
    ∃ l', parcLinkedListSetAtIndex l xs.length c = pure (some a, l') ∧
      Shaped l' (xs ++ (p, c) :: ys) := by
  have h' : Threaded l ([] ++ (xs ++ (p, a) :: ys)) := h.toThreaded
  have hg := nodeGetByIndex_eq h' xs.length
  have hlt : xs.length < l.size := by
    rw [h.size, length_append, length_cons]
    omega
  refine ⟨_, ?_, ⟨h.toThreaded.set c, ?_⟩⟩
  · unfold parcLinkedListSetAtIndex
    rw [trapIfIndexExceedsSize_of (.inr hlt), pure_bind, h.head, hg, pure_bind, drop_left,
      first_cons, if_neg h.toThreaded.ne_null_middle, read_of h.toThreaded.cell, pure_bind,
      write_of h.toThreaded.cell, pure_bind]
  · rw [h.tail, last_append, last_append]
    rfl

/-! ## Iterators

An iterator stands after the part of the list that it has returned. -/

theorem nodeIsValid_of (h : Threaded l (xs ++ (p, a) :: ys)) : nodeIsValid l p = pure true := by
  unfold nodeIsValid
  rw [if_neg h.ne_null_middle, read_of h.cell, pure_bind]
  have hp : (if last NULL xs = NULL then pure true
      else do pure (decide ((← l.nodes.read (last NULL xs)).next = p))) =
        (pure true : Prog Bool) := by
    rcases eq_nil_or_concat xs with rfl | ⟨xs, ⟨q, b⟩, rfl⟩
    · rfl
    · rw [concat_eq_append, append_assoc] at h
      rw [concat_eq_append, last_append, last_cons, last_nil, if_neg h.ne_null_middle,
        read_of h.cell, pure_bind]
      simp
  rw [hp, pure_bind]
  cases ys with
  | nil => rfl
  | cons y ys =>
    rw [first_cons, if_neg h.step.ne_null_middle, read_of h.step.cell, pure_bind]
    rfl

theorem iteratorIsValid_last (h : Threaded l (xs ++ ys)) :
    iteratorIsValid l (last NULL xs) = pure () := by
  unfold iteratorIsValid
  rcases eq_nil_or_concat xs with rfl | ⟨xs, ⟨q, b⟩, rfl⟩
  · rfl
  · rw [concat_eq_append, append_assoc] at h
    rw [concat_eq_append, last_append, last_cons, last_nil, if_neg h.ne_null_middle,
      nodeIsValid_of h, pure_bind, assertTrue_true]

theorem iteratorHasNext_eq (h : Threaded l (xs ++ ys)) :
    iteratorHasNext l (last NULL xs) = pure (!ys.isEmpty) := by
  have hn : (if last NULL xs = NULL then pure l.head
      else do pure (← l.nodes.read (last NULL xs)).next) = (pure (first NULL ys) : Prog Ptr) := by
    rcases eq_nil_or_concat xs with rfl | ⟨xs, ⟨q, b⟩, rfl⟩
    · rw [last_nil, if_pos rfl, h.head]
      rfl
    · rw [concat_eq_append, append_assoc] at h
      rw [concat_eq_append, last_append, last_cons, last_nil, if_neg h.ne_null_middle,
        read_of h.cell, pure_bind]
      rfl
  unfold iteratorHasNext
  rw [hn, pure_bind]
  cases ys with
  | nil => rfl
  | cons y ys =>
    rw [first_cons, if_neg h.ne_null_middle, nodeIsValid_of h, pure_bind, assertTrue_true,
      pure_bind]
    rfl

theorem iteratorNext_eq (h : Threaded l (xs ++ (p, a) :: ys)) :
    iteratorNext l (last NULL xs) = pure (p, a) := by
  have hn : (if last NULL xs = NULL then pure l.head
      else do
        assertTrue (← nodeIsValid l (last NULL xs)) "node is invalid"
        let n ← l.nodes.read (last NULL xs)
        trapOutOfBoundsIf (n.next = NULL) "No more elements."
        pure n.next) = (pure p : Prog Ptr) := by
    rcases eq_nil_or_concat xs with rfl | ⟨xs, ⟨q, b⟩, rfl⟩
    · rw [last_nil, if_pos rfl, h.head]
      rfl
    · have hp := h.ne_null_middle
      rw [concat_eq_append, append_assoc] at h
      rw [concat_eq_append, last_append, last_cons, last_nil, if_neg h.ne_null_middle,
        nodeIsValid_of h, pure_bind, assertTrue_true, pure_bind, read_of h.cell, pure_bind]
      show (trapOutOfBoundsIf (p = NULL) _ >>= fun _ => pure p) = _
      rw [trapOutOfBoundsIf_of_not hp, pure_bind]
  have hv : iteratorIsValid l p = pure () := by
    have := iteratorIsValid_last h.step
    rwa [last_append] at this
  unfold iteratorNext
  rw [hn, pure_bind, nodeIsValid_of h, pure_bind, assertTrue_true, pure_bind, hv, pure_bind,
    read_of h.cell, pure_bind]

theorem iteratorRemove_eq (h : Threaded l (xs ++ (p, a) :: ys)) :
    ∃ l', iteratorRemove l p = pure (last NULL xs, l') ∧ Threaded l' (xs ++ ys) ∧
      TailKept l (xs ++ (p, a) :: ys) l' (xs ++ ys) := by
  obtain ⟨l', hd, h', ht⟩ := h.delete
  refine ⟨l', ?_, h', tailKept_delete h ht⟩
  unfold iteratorRemove
  rw [if_neg h.ne_null_middle, read_of h.cell, pure_bind]
  rw [hd, pure_bind]
  dsimp only
  rw [iteratorIsValid_last h', pure_bind]

end Libparc.LinkedList
