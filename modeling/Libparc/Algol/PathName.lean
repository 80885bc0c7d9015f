import Libparc.Algol.BufferComposer
import Libparc.Algol.Deque
import Libparc.Runs

/-! # parc_PathName

A path name is a deque of names. Reading one skips slashes and takes all up to the next slash,
the end of the string or the limit as a name, so that its names are the runs of the string
between slashes (`parse_names`); writing puts one slash between any two of them, and that is read
back as the same names as long as they could have been read (`parse_toString`). -/
namespace Libparc.PathName
open Buffer BufferComposer LinkedList Deque Runs Exec List Subtype

/-- The characters in front of the NUL that ends a string. -/
abbrev CString := { bytes : List UInt8 // 0 ∉ bytes }

def separator : UInt8 := 47

/-- `struct parc_pathname`. -/
structure PARCPathName where
  isAbsolute : Bool
  path : PARCDeque CString

def parcPathNameCreate : PARCPathName := ⟨false, parcDequeCreate⟩

/-! ## Reading -/

/-- `path[index]`, where `path` is all there is from the pointer on. -/
def charAt (path : List UInt8) (index : Nat) : Prog UInt8 :=
  match path[index]? with
  | some c => pure c
  | none => throw .memoryFault

/-- A string that does not end is read past all there is. -/
def strlen (path : List UInt8) : Prog Nat :=
  if 0 ∈ path then pure (path.idxOf 0) else throw .memoryFault

/-- `parcMemory_StringDuplicate`, which is `strndup`. -/
def stringDuplicate (string : List UInt8) (length : Nat) : CString :=
  ⟨(string.take length).takeWhile (· ≠ 0), fun hmem => by
    simpa using all_eq_true.mp all_takeWhile 0 hmem⟩

/-- The two inner loops of `parcPathName_ParseToLimit`: the index goes on over characters of a
kind, and not past the limit. -/
def skipWhile (kind : UInt8 → Bool) (path : List UInt8) (limit : Nat) : Nat → Prog Nat :=
  Exec.loop fun index => do
    if kind (← charAt path index) ∧ index < limit then pure (.inl (index + 1))
    else pure (.inr index)

def isSeparator (c : UInt8) : Bool := c == separator

def isName (c : UInt8) : Bool := c != 0 && c != separator

/-- A turn of its outer loop. -/
def parseBody (A : Allocator) (path : List UInt8) (limit : Nat) :
    Nat × PARCDeque CString → Prog ((Nat × PARCDeque CString) ⊕ PARCDeque CString)
  | (index, deque) => do
    if (← charAt path index) ≠ 0 ∧ index < limit then
      let segment ← skipWhile isSeparator path limit index
      if (← charAt path segment) ≠ 0 ∧ segment < limit then
        let index ← skipWhile isName path limit segment
        let name := stringDuplicate (path.drop segment) (index - segment)
        pure (.inl (index, ← parcDequeAppend A deque name))
      else pure (.inl (segment, deque))
    else pure (.inr deque)

def parcPathNameParseToLimit (A : Allocator) (limit : Nat) (path : List UInt8) :
    Prog PARCPathName :=
  if limit > 0 then do
    let isAbsolute := (← charAt path 0) == separator
    let index := if isAbsolute then 1 else 0
    pure ⟨isAbsolute, ← Exec.loop (parseBody A path limit) (index, parcDequeCreate)⟩
  else pure parcPathNameCreate

def parcPathNameParse (A : Allocator) (path : List UInt8) : Prog PARCPathName := do
  parcPathNameParseToLimit A (← strlen path) path

/-! ## The other calls -/

/-- `_pathNameSegmentEquals`: no name is NULL. -/
def segmentEquals (x y : CString) : Bool := x.val == y.val

def parcPathNameEquals (x y : PARCPathName) : Prog Bool :=
  if x.isAbsolute = y.isAbsolute then parcDequeEquals segmentEquals x.path y.path
  else pure false

section
variable (pathName : PARCPathName) (composer : PARCBufferComposer)

def parcPathNameIsAbsolute : Bool := pathName.isAbsolute

/-- The slash of an absolute path name, which may have no other. -/
def buildStringRoot : Prog PARCBufferComposer :=
  if parcPathNameIsAbsolute pathName then parcBufferComposerPutString composer [separator]
  else pure composer

/-- A turn of the loop of `parcPathName_BuildString`. -/
def buildStringSegment (i : Nat) : Prog PARCBufferComposer := do
  let name ← parcDequeGetAtIndex pathName.path (.ofNat i)
  parcBufferComposerPutStrings composer [some [separator], some name.val, none]

def parcPathNameBuildString : Prog PARCBufferComposer := do
  let composer ← buildStringRoot pathName composer
  let length := parcDequeSize pathName.path
  if length > 0 then
    let name ← parcDequeGetAtIndex pathName.path 0
    let composer ← parcBufferComposerPutString composer name.val
    (range' 1 (length - 1)).foldlM (buildStringSegment pathName) composer
  else pure composer

/-- `lineSize` is the `LEVEL1_DCACHE_LINESIZE` of the build. -/
def parcPathNameToString (lineSize : Nat) (pathName : PARCPathName) : Prog (List UInt8) := do
  let composer ← parcPathNameBuildString pathName (parcBufferComposerCreate lineSize)
  parcBufferToString (parcBufferComposerProduceBuffer composer)

/-- The deque is one of these names. -/
def Names (names : List CString) : Prop :=
  ∃ xs, Shaped pathName.path xs ∧ xs.map Prod.snd = names

end

/-- A name that can be read. -/
def Readable (name : CString) : Prop := name.val ≠ [] ∧ separator ∉ name.val

theorem stringDuplicate_val {string l} (ht : string.take l.length = l) (hn : 0 ∉ l) :
    (stringDuplicate string l.length).val = l := by
  have hl : ∀ c ∈ l, decide (c ≠ 0) = true := fun c hc => decide_eq_true fun hz => hn (hz ▸ hc)
  show (string.take l.length).takeWhile (· ≠ 0) = l
  rw [ht, ← append_nil l, takeWhile_append_of_pos hl, takeWhile_nil]

/-! ## The loops over the string -/

/-- From the index on there is this text, and the limit is at the NUL behind it. -/
structure At (path : List UInt8) (limit index : Nat) (text : List UInt8) : Prop where
  nul : 0 ∉ text
  memory : ∃ rest, path.drop index = text ++ 0 :: rest
  limit_eq : limit = index + text.length

section
variable {path : List UInt8} {lim i : Nat} {text l : List UInt8} {c : UInt8}

theorem At.charAt (h : At path lim i text) : PathName.charAt path i = pure (text.headD 0) := by
  obtain ⟨rest, hr⟩ := h.memory
  have hg : path[i]? = some (text.headD 0) := by
    rw [← Nat.add_zero i, ← getElem?_drop, hr]
    cases text <;> rfl
  rw [PathName.charAt, hg]

theorem At.not_lt (h : At path lim i []) : ¬ i < lim := by
  have := h.limit_eq
  simp at this
  omega

theorem At.more (h : At path lim i text) (hne : text ≠ []) : text.headD 0 ≠ 0 ∧ i < lim := by
  obtain ⟨c, text, rfl⟩ := exists_cons_of_ne_nil hne
  have hl := h.limit_eq
  rw [length_cons] at hl
  exact ⟨fun hc => h.nul (mem_cons.mpr (.inl hc.symm)), by omega⟩

section
variable (h : At path lim i (l ++ text))
include h

theorem At.skip : At path lim (i + l.length) text := by
  obtain ⟨rest, hr⟩ := h.memory
  refine ⟨fun hm => h.nul (mem_append_right l hm), ⟨rest, ?_⟩, ?_⟩
  · rw [← drop_drop, hr, append_assoc, drop_left]
  · rw [h.limit_eq, length_append]
    omega

theorem At.duplicate : (stringDuplicate (path.drop i) l.length).val = l := by
  obtain ⟨rest, hr⟩ := h.memory
  refine stringDuplicate_val ?_ fun hm => h.nul (mem_append_left text hm)
  rw [hr, append_assoc, take_left]

theorem skipWhile_eq {kind}
    (hl : ∀ c ∈ l, kind c = true) (ht : ∀ c, text.head? = some c → kind c = false) :
    skipWhile kind path lim i = pure (i + l.length) := by
  induction l generalizing i with
  | nil =>
    refine loop_done ?_
    rw [At.charAt h, pure_bind]
    cases text with
    | nil => exact if_neg fun ha => At.not_lt h ha.2
    | cons c text => exact if_neg fun ha => absurd ha.1 (by simp [ht c rfl])
  | cons c l ih =>
    have hs : At path lim (i + 1) (l ++ text) := At.skip (l := [c]) h
    have hr := ih hs fun d hd => hl d (mem_cons_of_mem c hd)
    rw [length_cons, Nat.add_comm l.length, ← Nat.add_assoc, ← hr]
    refine loop_next ?_
    rw [At.charAt h, pure_bind]
    exact if_pos ⟨hl c mem_cons_self, (h.more (by simp)).2⟩

end

variable {A : Allocator} {d : PARCDeque CString} {xs : List (Ptr × CString)}

theorem parseBody_end (h : At path lim i []) : parseBody A path lim (i, d) = pure (.inr d) := by
  rw [parseBody, h.charAt, pure_bind]
  exact if_neg fun ha => h.not_lt ha.2

theorem parseBody_separators (h : At path lim i l) (hne : l ≠ []) (hl : ∀ c ∈ l, c = separator) :
    parseBody A path lim (i, d) = pure (.inl (i + l.length, d)) := by
  have h' : At path lim i (l ++ []) := by rwa [append_nil]
  have hs : skipWhile isSeparator path lim i = pure (i + l.length) :=
    skipWhile_eq h' (fun c hc => by simp [isSeparator, hl c hc]) (by simp)
  rw [parseBody, h.charAt, pure_bind, if_pos (h.more hne), hs, pure_bind, h'.skip.charAt, pure_bind]
  exact if_neg fun ha => h'.skip.not_lt ha.2

theorem parseBody_name {run} (h : At path lim i (l ++ (run ++ text)))
    (hd : Shaped d xs) (hl : ∀ c ∈ l, c = separator) (hne : run ≠ [])
    (hr : separator ∉ run) (ht : text = [] ∨ text.head? = some separator) :
    ∃ d' q name, parseBody A path lim (i, d) = pure (.inl (i + l.length + run.length, d')) ∧
      Shaped d' (xs ++ [(q, name)]) ∧ name.val = run := by
  have h1 : At path lim (i + l.length) (run ++ text) := h.skip
  have hk : ∀ c ∈ run, c ≠ separator := fun c hc hs => hr (hs ▸ hc)
  have hn : ∀ c ∈ run, c ≠ 0 := fun c hc hz =>
    h1.nul (mem_append_left text (hz ▸ hc))
  have hsk : skipWhile isSeparator path lim i = pure (i + l.length) := by
    refine skipWhile_eq h (fun c hc => by simp [isSeparator, hl c hc]) fun c hc => ?_
    rw [head?_append_of_ne_nil run hne] at hc
    simpa [isSeparator] using hk c (mem_of_mem_head? hc)
  have hna : skipWhile isName path lim (i + l.length) = pure (i + l.length + run.length) := by
    refine skipWhile_eq h1 (fun c hc => by simp [isName, hk c hc, hn c hc]) fun c hc => ?_
    rcases ht with rfl | ht
    · cases hc
    · rw [ht] at hc
      cases hc
      rfl
  have hdu := h1.duplicate
  obtain ⟨d', q, ha, hd'⟩ := append_shaped (A := A) hd
    (stringDuplicate (path.drop (i + l.length)) run.length)
  refine ⟨d', q, _, ?_, hd', hdu⟩
  have hm : run ++ text ≠ [] := append_ne_nil_of_left_ne_nil hne text
  rw [parseBody, h.charAt, pure_bind,
    if_pos (h.more (append_ne_nil_of_right_ne_nil l hm)), hsk, pure_bind, h1.charAt,
    pure_bind, if_pos (h1.more hm), hna, pure_bind, Nat.add_sub_cancel_left]
  simp only [ha, pure_bind]

theorem parse_loop (h : At path lim i text) (hd : Shaped d xs) :
    ∃ d' ys, Exec.loop (parseBody A path lim) (i, d) = pure d' ∧
      Shaped d' (xs ++ ys) ∧ ys.map (fun y => y.2.val) = runs separator text := by
  induction hle : text.length using Nat.strongRecOn generalizing i text d xs with
  | ind n ih =>
    -- a turn goes over the separators and, if there is one, over the name behind them
    have ht := takeWhile_append_dropWhile (p := isSeparator) (l := text)
    have hl : ∀ c ∈ text.takeWhile isSeparator, c = separator := fun c hc =>
      by simpa [isSeparator] using all_eq_true.mp all_takeWhile c hc
    obtain ⟨run, m, hr, hs, hm⟩ := exists_split separator (text.dropWhile isSeparator)
    rw [hr] at ht
    by_cases hne : run = []
    · have hm : m = [] := by
        have hh := head?_dropWhile_not isSeparator text
        rw [hr, hne, nil_append] at hh
        rcases hm with hm | hm
        · exact hm
        · rw [hm] at hh
          cases hh
      rw [hne, hm, append_nil, append_nil] at ht
      rw [ht] at hl
      refine ⟨d, [], ?_, by simpa using hd, ?_⟩
      · by_cases ht' : text = []
        · rw [ht'] at h
          exact loop_done (parseBody_end h)
        · have h' : At path lim i (text ++ []) := by rwa [append_nil]
          exact (loop_next (parseBody_separators h ht' hl)).trans
            (loop_done (parseBody_end h'.skip))
      · rw [← append_nil text, runs_skip [] hl, runs_nil, map_nil]
    · rw [← ht] at h
      obtain ⟨d1, q, name, hb, hd1, hn⟩ := parseBody_name (A := A) h hd hl hne hs hm
      have hsh : m.length < n := by
        have hp := length_pos_iff.mpr hne
        rw [← hle, ← ht, length_append, length_append]
        omega
      obtain ⟨d', ys, hlo, hd', hys⟩ := ih m.length hsh h.skip.skip hd1 rfl
      refine ⟨d', (q, name) :: ys, (loop_next hb).trans hlo, ?_, ?_⟩
      · rwa [append_cons]
      · rw [← ht, runs_skip _ hl, runs_take hne hs hm, map_cons, hn, hys]

end

theorem strlen_eq {text} (h : 0 ∉ text) (rest : List UInt8) :
    strlen (text ++ 0 :: rest) = pure text.length := by
  rw [strlen, if_pos (by simp), idxOf_append_of_notMem h, idxOf_cons_self, Nat.add_zero]

/-- **The names that are read are the runs between slashes.** -/
theorem parse_names (A : Allocator) {text} (hn : 0 ∉ text) (rest : List UInt8) :
    ∃ pathName names, parcPathNameParse A (text ++ 0 :: rest) = pure pathName ∧
      Names pathName names ∧ names.map val = runs separator text ∧
      pathName.isAbsolute = decide (text.head? = some separator) := by
  have h : At (text ++ 0 :: rest) text.length 0 text := ⟨hn, ⟨rest, rfl⟩, by simp⟩
  rw [parcPathNameParse, strlen_eq hn, pure_bind, parcPathNameParseToLimit]
  by_cases hne : text = []
  · rw [hne]
    exact ⟨parcPathNameCreate, [], rfl, ⟨[], Shaped.create, rfl⟩, rfl, rfl⟩
  · obtain ⟨c, text, rfl⟩ := exists_cons_of_ne_nil hne
    rw [if_pos (by simp), h.charAt, pure_bind]
    by_cases hc : c = separator
    · have hs : At (c :: text ++ 0 :: rest) (c :: text).length 1 text := At.skip (l := [c]) h
      obtain ⟨deque, ys, hl, hd, hys⟩ := parse_loop (A := A) hs Shaped.create
      refine ⟨⟨true, deque⟩, ys.map Prod.snd, ?_, ⟨ys, hd, rfl⟩, ?_, ?_⟩
      · simp only [headD_cons, hc, beq_self_eq_true, if_true]
        rw [hc] at hl
        rw [parcDequeCreate, hl, pure_bind]
      · rw [hc, runs_sep, map_map]
        exact hys
      · simp [hc]
    · obtain ⟨deque, ys, hl, hd, hys⟩ := parse_loop (A := A) h Shaped.create
      have hf : (c == separator) = false := by simpa using hc
      refine ⟨⟨false, deque⟩, ys.map Prod.snd, ?_, ⟨ys, hd, rfl⟩, ?_, ?_⟩
      · simp only [headD_cons, hf, Bool.false_eq_true, if_false]
        rw [parcDequeCreate, hl, pure_bind]
      · rw [map_map]
        exact hys
      · simp [hc]

/-! ## Writing -/

/-- What a path name is written as. -/
def written (isAbsolute : Bool) (names : List CString) : List UInt8 :=
  (if isAbsolute then [separator] else []) ++ [separator].intercalate (names.map val)

section
variable {p : PARCPathName} {ns : List CString} {k : PARCBufferComposer}
  {out : List UInt8}

theorem Names.size (h : Names p ns) : parcDequeSize p.path = ns.length := by
  obtain ⟨xs, hs, rfl⟩ := h
  rw [parcDequeSize, hs.size, length_map]

theorem Names.getAtIndex (h : Names p ns) (hs : ns.length < 2 ^ 64) {i : Nat}
    {name} (hi : ns[i]? = some name) : parcDequeGetAtIndex p.path (.ofNat i) = pure name := by
  obtain ⟨xs, hsh, rfl⟩ := h
  obtain ⟨hlt, hn⟩ := List.getElem?_eq_some_iff.mp hi
  rw [length_map] at hs hlt
  have hin : (UInt64.ofNat i).toNat = i := UInt64.toNat_ofNat_of_lt' (by
    show i < 2 ^ 64
    omega)
  rw [getAtIndex_eq hsh (by omega), ← hn, getElem_map]
  simp only [hin]

theorem buildStringSegments_composes (h : Names p ns) (hs : ns.length < 2 ^ 64)
    (hc : Composes k out) {before after} (hn : ns = before ++ after) :
    ∃ c', (range' before.length after.length).foldlM (buildStringSegment p) k = pure c' ∧
      Composes c' (out ++ after.flatMap fun name => separator :: name.val) := by
  induction after generalizing before k out with
  | nil => exact ⟨k, rfl, by simpa using hc⟩
  | cons name after ih =>
    have hg := h.getAtIndex hs (show ns[before.length]? = some name by simp [hn])
    obtain ⟨c1, hp, h1⟩ := putStrings_composes [[separator], name.val] hc
    have hn' : ns = before ++ [name] ++ after := by simp [hn]
    obtain ⟨c', hl, h'⟩ := ih h1 hn'
    refine ⟨c', ?_, by simpa using h'⟩
    rw [length_cons, range'_succ, foldlM_cons, buildStringSegment, hg, pure_bind]
    rw [length_append, length_singleton] at hl
    exact (congrArg (· >>= _) hp).trans hl

theorem intercalate_cons (name : CString) (ns : List CString) :
    [separator].intercalate ((name :: ns).map val) =
      name.val ++ ns.flatMap fun name => separator :: name.val := by
  induction ns generalizing name with
  | nil => simp
  | cons next ns ih =>
    rw [map_cons, map_cons, intercalate_cons_cons, ← map_cons, ih next]
    simp

theorem buildStringRoot_composes (p : PARCPathName) :
    Appends (buildStringRoot p) (if p.isAbsolute then [separator] else []) :=
  .ite (putString_composes [separator]) .nil

theorem buildString_composes (h : Names p ns) (hs : ns.length < 2 ^ 64) (hc : Composes k out) :
    ∃ c', parcPathNameBuildString p k = pure c' ∧ Composes c' (out ++ written p.isAbsolute ns) := by
  obtain ⟨c1, hp1, h1⟩ := buildStringRoot_composes p hc
  rw [parcPathNameBuildString, hp1, pure_bind, h.size]
  cases ns with
  | nil => exact ⟨c1, rfl, by simpa [written] using h1⟩
  | cons name ns =>
    have hg := h.getAtIndex hs (show (name :: ns)[0]? = some name from rfl)
    obtain ⟨c2, hp2, h2⟩ := putString_composes name.val h1
    have hn : name :: ns = [name] ++ ns := rfl
    obtain ⟨c', hl, h'⟩ := buildStringSegments_composes h hs h2 hn
    refine ⟨c', ?_, ?_⟩
    · exact (congrArg (· >>= _) hg).trans ((congrArg (· >>= _) hp2).trans hl)
    · rw [written, intercalate_cons]
      simpa using h'

theorem toString_eq (size : Nat) (h : Names p ns) (hs : ns.length < 2 ^ 64) :
    parcPathNameToString size p = pure (written p.isAbsolute ns) := by
  obtain ⟨k, hb, hc⟩ := buildString_composes h hs (composes_allocate size _)
  obtain ⟨hv, hby⟩ := produceBuffer_spec hc
  rw [parcPathNameToString, parcBufferComposerCreate, hb, pure_bind, toString_spec hv,
    hby, nil_append]

theorem written_nul (isAbsolute : Bool) (ns : List CString) : 0 ∉ written isAbsolute ns := by
  have hj : 0 ∉ [separator].intercalate (ns.map val) := by
    cases ns with
    | nil => exact not_mem_nil
    | cons name ns =>
      rw [intercalate_cons, mem_append, mem_flatMap]
      rintro (hm | ⟨next, -, hm⟩)
      · exact name.property hm
      · rcases mem_cons.mp hm with hz | hm
        · exact absurd hz (by decide)
        · exact next.property hm
  rw [written, mem_append, not_or]
  refine ⟨?_, hj⟩
  cases isAbsolute <;> decide

section
variable (isAbsolute : Bool) (h : ∀ name ∈ ns, Readable name)
include h

theorem runs_written : runs separator (written isAbsolute ns) = ns.map val := by
  have hj : runs separator ([separator].intercalate (ns.map val)) = ns.map val := by
    refine runs_intercalate ?_ ?_ <;> intro run hr <;> obtain ⟨name, hn, rfl⟩ := mem_map.mp hr
    · exact (h name hn).1
    · exact (h name hn).2
  rw [written, runs_skip _ (by cases isAbsolute <;> simp), hj]

theorem head_written : decide ((written isAbsolute ns).head? = some separator) = isAbsolute := by
  cases isAbsolute with
  | true => rfl
  | false =>
    cases ns with
    | nil => rfl
    | cons name ns =>
      obtain ⟨hne, hs⟩ := h name (.head _)
      rw [written, intercalate_cons]
      refine decide_eq_false fun hh => hs ?_
      simp only [Bool.false_eq_true, if_false, nil_append] at hh
      rw [head?_append_of_ne_nil _ hne] at hh
      exact mem_of_mem_head? hh

end

theorem equals_of_names {p'} (h : Names p ns)
    (h' : Names p' ns) (ha : p'.isAbsolute = p.isAbsolute) :
    parcPathNameEquals p' p = pure true := by
  obtain ⟨xs, hs, hxs⟩ := h
  obtain ⟨ys, hs', hys⟩ := h'
  rw [parcPathNameEquals, if_pos ha, equals_eq hs' hs, hxs, hys, isEqv_eq_decide]
  simp [segmentEquals]

end

/-- **Reading a path name gives the runs between slashes, and what is written of such names is
read back as the same path name.** The size of a path name is a `size_t`. -/
theorem parse_toString (A : Allocator) (lineSize : Nat) :
    (∀ (s : CString) (rest : List UInt8), ∃ pathName names,
      parcPathNameParse A (s.val ++ 0 :: rest) = pure pathName ∧ Names pathName names ∧
      (∀ name ∈ names, Readable name) ∧
      (parcPathNameIsAbsolute pathName = true ↔ s.val.head? = some separator) ∧
      names.map val = runs separator s.val) ∧
    ∀ (pathName : PARCPathName) (names : List CString), Names pathName names →
      names.length < 2 ^ 64 → (∀ name ∈ names, Readable name) →
      ∃ text, parcPathNameToString lineSize pathName = pure text ∧
        ∀ rest, ∃ pathName', parcPathNameParse A (text ++ 0 :: rest) = pure pathName' ∧
          parcPathNameEquals pathName' pathName = pure true := by
  refine ⟨fun s rest => ?_, fun pathName names h hs hr => ?_⟩
  · obtain ⟨pathName, names, hp, h, hru, ha⟩ := parse_names A s.property rest
    refine ⟨pathName, names, hp, h, fun name hn => ?_, ?_, hru⟩
    · have hrn : name.val ∈ runs separator s.val := by
        rw [← hru]
        exact mem_map_of_mem hn
      obtain ⟨hne, hse, -⟩ := mem_runs_iff.mp hrn
      exact ⟨hne, hse⟩
    · rw [parcPathNameIsAbsolute, ha, decide_eq_true_iff]
  · refine ⟨_, toString_eq lineSize h hs, fun rest => ?_⟩
    obtain ⟨pathName', names', hp, h', hru, ha⟩ :=
      parse_names A (written_nul pathName.isAbsolute names) rest
    rw [runs_written _ hr] at hru
    rw [head_written _ hr] at ha
    cases map_injective_iff.mpr val_injective hru
    exact ⟨pathName', hp, equals_of_names h h' ha⟩

/-- `//usr/lib/` is read as two names, and read again from what they are written as. -/
theorem parse_toString_usr : ∃ pathName text,
    parcPathNameParse .bump [47, 47, 117, 115, 114, 47, 108, 105, 98, 47, 0] = pure pathName ∧
    parcPathNameIsAbsolute pathName = true ∧ parcPathNameToString 64 pathName = pure text ∧
    ∃ pathName', parcPathNameParse .bump (text ++ [0]) = pure pathName' ∧
      parcPathNameEquals pathName' pathName = pure true := by
  obtain ⟨hp, hw⟩ := parse_toString .bump 64
  obtain ⟨pathName, names, hpn, hn, hr, ha, hru⟩ :=
    hp ⟨[47, 47, 117, 115, 114, 47, 108, 105, 98, 47], by decide⟩ []
  have hs : names.length = 2 := by
    have hl := congrArg length hru
    rwa [length_map] at hl
  obtain ⟨text, ht, hag⟩ := hw pathName names hn (by omega) hr
  exact ⟨pathName, text, hpn, ha.mpr rfl, ht, hag []⟩

/-! ## Head and tail -/

def parcPathNameSize (pathName : PARCPathName) : Nat := parcDequeSize pathName.path

def parcPathNameGetAtIndex (pathName : PARCPathName) (index : Nat) : Prog CString :=
  parcDequeGetAtIndex pathName.path (.ofNat index)

def parcPathNameMakeAbsolute (pathName : PARCPathName) (isAbsolute : Bool) : PARCPathName :=
  { pathName with isAbsolute }

section
variable (A : Allocator)

section
variable (pathName : PARCPathName)

def parcPathNamePrepend (name : CString) : Prog PARCPathName := do
  let name := stringDuplicate name.val name.val.length
  pure { pathName with path := ← parcDequePrepend A pathName.path name }

def parcPathNameAppend (name : CString) : Prog PARCPathName := do
  let name := stringDuplicate name.val name.val.length
  pure { pathName with path := ← parcDequeAppend A pathName.path name }

/-- The loops of `parcPathName_Head` and `parcPathName_Tail`, over indices. -/
def copyNames (put : PARCPathName → CString → Prog PARCPathName) (pathName : PARCPathName)
    (indices : List Nat) : Prog PARCPathName :=
  indices.foldlM (fun result i => do put result (← parcPathNameGetAtIndex pathName i))
    parcPathNameCreate

def parcPathNameHead (size : Nat) : Prog PARCPathName := do
  let maximum := if parcPathNameSize pathName < size then parcPathNameSize pathName else size
  let result ← copyNames (parcPathNameAppend A) pathName (range' 0 maximum)
  pure (parcPathNameMakeAbsolute result (parcPathNameIsAbsolute pathName))

def parcPathNameTail (size : Nat) : Prog PARCPathName := do
  let size := if size > parcPathNameSize pathName then parcPathNameSize pathName else size
  let result ← copyNames (parcPathNamePrepend A) pathName
    (range' (parcPathNameSize pathName - size) size)
  pure (parcPathNameMakeAbsolute result false)

end

variable {pathName : PARCPathName} {names ns' : List CString}

theorem Names.unique (h : Names pathName names) (h' : Names pathName ns')
    (hs : names.length < 2 ^ 64) : names = ns' := by
  have hl : names.length = ns'.length := h.size.symm.trans h'.size
  refine ext_getElem hl fun i hi hi' => ?_
  have hg := h.getAtIndex hs (getElem?_eq_getElem hi)
  have hg' := h'.getAtIndex (hl ▸ hs) (getElem?_eq_getElem hi')
  exact pure_inj.mp (hg.symm.trans hg')

theorem stringDuplicate_self (name : CString) :
    stringDuplicate name.val name.val.length = name :=
  Subtype.ext (stringDuplicate_val take_length name.property)

theorem append_names (h : Names pathName names) (name : CString) :
    ∃ p', parcPathNameAppend A pathName name = pure p' ∧ Names p' (names ++ [name]) := by
  obtain ⟨xs, hs, rfl⟩ := h
  obtain ⟨path, q, ha, hp⟩ := append_shaped (A := A) hs name
  refine ⟨{ pathName with path }, ?_, _, hp, by simp⟩
  simp only [parcPathNameAppend, stringDuplicate_self, ha, pure_bind]

theorem prepend_names (h : Names pathName names) (name : CString) :
    ∃ p', parcPathNamePrepend A pathName name = pure p' ∧ Names p' (name :: names) := by
  obtain ⟨xs, hs, rfl⟩ := h
  obtain ⟨path, q, hp, hpa⟩ := prepend_shaped (A := A) hs name
  refine ⟨{ pathName with path }, ?_, _, hpa, by simp⟩
  simp only [parcPathNamePrepend, stringDuplicate_self, hp, pure_bind]

theorem copyNames_names {put joined} (hp : ∀ {r names}, Names r names → ∀ name, ∃ r',
      put r name = pure r' ∧ Names r' (joined names name))
    (h : Names pathName names) (hs : names.length < 2 ^ 64) {i n} (hn : i + n ≤ names.length) :
    ∃ r, copyNames put pathName (range' i n) = pure r ∧
      Names r (((names.drop i).take n).foldl joined []) := by
  induction n with
  | zero => exact ⟨_, rfl, [], Shaped.create, by simp⟩
  | succ n ih =>
    obtain ⟨r, hc, hr⟩ := ih (by omega)
    obtain ⟨name, hna⟩ : ∃ name, names[i + n]? = some name := ⟨_, getElem?_eq_getElem (by omega)⟩
    obtain ⟨r', hru, hr'⟩ := hp hr name
    refine ⟨r', ?_, ?_⟩
    · rw [copyNames] at hc ⊢
      have hg : parcPathNameGetAtIndex pathName (i + n) = pure name := h.getAtIndex hs hna
      rw [range'_concat, foldlM_append, hc, pure_bind, Nat.one_mul, foldlM_cons,
        hg, pure_bind, hru, pure_bind, foldlM_nil]
    · simpa [take_add_one, getElem?_drop, hna] using hr'

section
variable {n} (h : Names pathName names) (hs : names.length < 2 ^ 64) (hn : n ≤ names.length)
include h hs hn

theorem head_names :
    ∃ head, parcPathNameHead A pathName n = pure head ∧ Names head (names.take n) := by
  have hl : parcPathNameSize pathName = names.length := h.size
  obtain ⟨head, hh, hna⟩ := copyNames_names (append_names A) h hs (i := 0) (n := n) (by omega)
  refine ⟨parcPathNameMakeAbsolute head pathName.isAbsolute, ?_, ?_⟩
  · simp only [parcPathNameHead, hl, if_neg (Nat.not_lt.mpr hn), hh, pure_bind]
    rfl
  · rwa [drop_zero, foldl_append_eq_append, ← flatMap_def, flatMap_singleton'] at hna

theorem tail_names :
    ∃ tail, parcPathNameTail A pathName n = pure tail ∧
      Names tail (names.drop (names.length - n)).reverse := by
  have hl : parcPathNameSize pathName = names.length := h.size
  obtain ⟨tail, ht, hna⟩ := copyNames_names (prepend_names A) h hs
    (i := names.length - n) (n := n) (by omega)
  refine ⟨parcPathNameMakeAbsolute tail false, ?_, ?_⟩
  · simp only [parcPathNameTail, hl, if_neg (Nat.not_lt.mpr hn), ht, pure_bind]
  · rwa [take_of_length_le (by rw [length_drop]; omega), foldl_flip_cons_eq_append,
      map_id', append_nil] at hna

end

/-- **When a head and a tail are the whole path name**: the tail comes in
reverse, so its names have to read the same from both ends. -/
theorem head_tail_iff (h : Names pathName names) (hsize : names.length < 2 ^ 64) {n : Nat}
    (hn : n ≤ names.length) :
    (∃ head tail heads tails,
      parcPathNameHead A pathName (parcPathNameSize pathName - n) = pure head ∧
        parcPathNameTail A pathName n = pure tail ∧ Names head heads ∧ Names tail tails ∧
        heads ++ tails = names) ↔
      (names.drop (names.length - n)).reverse = names.drop (names.length - n) := by
  have hl : parcPathNameSize pathName = names.length := h.size
  obtain ⟨head, hh, hhe⟩ := head_names A h hsize (Nat.sub_le names.length n)
  obtain ⟨tail, ht, hta⟩ := tail_names A h hsize hn
  have ha := take_append_drop (names.length - n) names
  rw [hl]
  constructor
  · rintro ⟨head', tail', heads, tails, hh', ht', hhe', hta', hna⟩
    cases pure_inj.mp (hh.symm.trans hh')
    cases pure_inj.mp (ht.symm.trans ht')
    cases hhe.unique hhe' (by rw [length_take]; omega)
    cases hta.unique hta' (by rw [length_reverse, length_drop]; omega)
    exact append_cancel_left (hna.trans ha.symm)
  · intro hr
    refine ⟨head, tail, _, _, hh, ht, hhe, hta, ?_⟩
    rw [hr, ha]

end

/-- The names `a` and `b`, as a head and a tail of one name. -/
theorem head_tail_iff_two : ∃ pathName, (do
      let pathName ← parcPathNameAppend .bump parcPathNameCreate ⟨[97], by decide⟩
      parcPathNameAppend .bump pathName ⟨[98], by decide⟩) = pure pathName ∧
    ∃ head tail heads tails,
      parcPathNameHead .bump pathName (parcPathNameSize pathName - 1) = pure head ∧
      parcPathNameTail .bump pathName 1 = pure tail ∧ Names head heads ∧ Names tail tails ∧
      heads ++ tails = [⟨[97], by decide⟩, ⟨[98], by decide⟩] := by
  have h0 : Names parcPathNameCreate [] := ⟨[], Shaped.create, rfl⟩
  obtain ⟨one, ha, h⟩ := append_names .bump h0 ⟨[97], by decide⟩
  obtain ⟨two, ha', h'⟩ := append_names .bump h ⟨[98], by decide⟩
  refine ⟨two, by rw [ha, pure_bind, ha'], ?_⟩
  exact (head_tail_iff .bump h' (by decide) (n := 1) (by decide)).mpr rfl

/-- The tail of two names is the two names in reverse. -/
theorem tail_two : ∃ pathName tail, (do
      let pathName ← parcPathNameAppend .bump parcPathNameCreate ⟨[97], by decide⟩
      parcPathNameAppend .bump pathName ⟨[98], by decide⟩) = pure pathName ∧
    parcPathNameTail .bump pathName 2 = pure tail ∧
    parcPathNameGetAtIndex tail 0 = pure ⟨[98], by decide⟩ ∧
    parcPathNameGetAtIndex tail 1 = pure ⟨[97], by decide⟩ :=
  ⟨_, _, rfl, rfl, rfl, rfl⟩

end Libparc.PathName
