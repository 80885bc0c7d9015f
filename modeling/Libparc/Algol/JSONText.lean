import Libparc.Algol.JSON

/-! # What rendering writes, and when values are equal

Rendering a value appends `valueText` to the composer and leaves the value with
its strings and names rewound (`buildString_spec`). `parcJSONValue_Equals`
accepts two values that agree in their structure, their bytes and their numbers
(`Agrees`). -/
namespace Libparc.JSON
open Buffer BufferComposer List

/-! ## A property of every leaf -/

/-- What is asked of the strings, of the names and of the numbers in a value. -/
structure Leaves where
  string : PARCBuffer → Prop
  name : PARCBuffer → Prop
  number : Number → Prop

/-- What `p` and `q` ask for implies what `r` asks for. -/
structure Leaves.Implies (p q r : Leaves) : Prop where
  string : ∀ s, p.string s → q.string s → r.string s
  name : ∀ n, p.name n → q.name n → r.name n
  number : ∀ m, p.number m → q.number m → r.number m

mutual

def Everywhere (p : Leaves) : PARCJSONValue → Prop
  | .boolean _ => True
  | .string string => p.string string
  | .number number => p.number number
  | .array array => EveryElement p array
  | .object members => EveryMember p members
  | .null => True

def EveryElement (p : Leaves) : PARCJSONArray → Prop
  | [] => True
  | value :: array => Everywhere p value ∧ EveryElement p array

def EveryMember (p : Leaves) : PARCJSON → Prop
  | [] => True
  | (name, value) :: members => p.name name ∧ Everywhere p value ∧ EveryMember p members

end

mutual

theorem Everywhere.imp {p q r : Leaves} (hr : p.Implies q r) :
    ∀ v, Everywhere p v → Everywhere q v → Everywhere r v
  | .boolean _, _, _ => trivial
  | .string string, h, h' => hr.string string h h'
  | .number number, h, h' => hr.number number h h'
  | .array array, h, h' => EveryElement.imp hr array h h'
  | .object members, h, h' => EveryMember.imp hr members h h'
  | .null, _, _ => trivial

theorem EveryElement.imp {p q r : Leaves} (hr : p.Implies q r) :
    ∀ a, EveryElement p a → EveryElement q a → EveryElement r a
  | [], _, _ => trivial
  | value :: a, h, h' => ⟨Everywhere.imp hr value h.1 h'.1, EveryElement.imp hr a h.2 h'.2⟩

theorem EveryMember.imp {p q r : Leaves} (hr : p.Implies q r) :
    ∀ ms, EveryMember p ms → EveryMember q ms → EveryMember r ms
  | [], _, _ => trivial
  | (name, value) :: ms, h, h' => ⟨hr.name name h.1 h'.1, Everywhere.imp hr value h.2.1 h'.2.1,
      EveryMember.imp hr ms h.2.2 h'.2.2⟩

end

/-! ## Text -/

def numberText (number : Number) : List UInt8 :=
  if number.internalDoubleRepresentation then formatLongDouble number.internalDoubleValue
  else (if number.sign = -1 then ascii "-" else []) ++ formatInt number.whole ++
    (if number.fraction > 0 then
      ascii "." ++ formatPadded (int32 number.fractionLog10) number.fraction else []) ++
    (if number.exponent ≠ 0 then ascii "e" ++ formatInt number.exponent else [])

def stringText (compact : Bool) (bytes : List UInt8) : List UInt8 :=
  quotationMark :: (bytes.flatMap (escape compact) ++ [quotationMark])

def blank (compact : Bool) : List UInt8 := if compact then [] else [space]

def aroundText (compact : Bool) (first last : UInt8) (text : List UInt8) : List UInt8 :=
  first :: (blank compact ++ (text ++ (blank compact ++ [last])))

mutual

def valueText (compact : Bool) : PARCJSONValue → List UInt8
  | .boolean boolean => if boolean then ascii "true" else ascii "false"
  | .string string => stringText compact string.remainingBytes
  | .number number => numberText number
  | .array array => aroundText compact beginArray endArray (elementsText compact [] array)
  | .object members => aroundText compact beginObject endObject (membersText compact [] members)
  | .null => ascii "null"

def elementsText (compact : Bool) (next : List UInt8) : PARCJSONArray → List UInt8
  | [] => []
  | value :: array =>
    next ++ (valueText compact value ++ elementsText compact (separator compact) array)

def membersText (compact : Bool) (next : List UInt8) : PARCJSON → List UInt8
  | [] => []
  | (name, value) :: members =>
    next ++ quotationMark :: (name.remainingBytes ++ (afterName compact ++
      (valueText compact value ++ membersText compact (separator compact) members)))

end

/-- The text of an object. -/
def jsonText (compact : Bool) (json : PARCJSON) : List UInt8 :=
  aroundText compact beginObject endObject (membersText compact [] json)

mutual

/-- The value with its strings and names rewound. -/
def rewound : PARCJSONValue → PARCJSONValue
  | .boolean boolean => .boolean boolean
  | .string string => .string (parcBufferRewind string)
  | .number number => .number number
  | .array array => .array (rewoundElements array)
  | .object members => .object (rewoundMembers members)
  | .null => .null

def rewoundElements : PARCJSONArray → PARCJSONArray
  | [] => []
  | value :: array => rewound value :: rewoundElements array

def rewoundMembers : PARCJSON → PARCJSON
  | [] => []
  | (name, value) :: members => (parcBufferRewind name, rewound value) :: rewoundMembers members

end

/-! ## Rendering -/

theorem putChar_composes (c : UInt8) : Appends (parcBufferComposerPutChar · c) [c] :=
  putUint8_composes c

theorem format_composes (text : List UInt8) : Appends (parcBufferComposerFormat · text) text :=
  putString_composes text

theorem buildStringNumber_spec (num : Number) :
    Appends (buildStringNumber num) (numberText num) := by
  unfold numberText
  rw [append_assoc]
  exact .ite (format_composes _) ((format_composes _).bind
    ((Appends.ite (format_composes _) .nil).bind (.ite (format_composes _) .nil)))

theorem putEscaped_composes (cp : Bool) (c : UInt8) :
    Appends (putEscaped · cp c) (escape cp c) := by
  by_cases he : escape cp c = [c]
  · simp only [putEscaped, he, if_true]
    exact putChar_composes c
  · simp only [putEscaped, he, if_false]
    exact putString_composes _

theorem buildString_loop (cp : Bool) (bytes : List UInt8) :
    ∀ {s k out}, s.Valid → s.remainingBytes = bytes → Composes k out →
      ∃ c', Exec.loop (buildStringBody cp) (s, k) = pure (s.advance bytes.length, c') ∧
        Composes c' (out ++ bytes.flatMap (escape cp)) := by
  induction bytes with
  | nil =>
    intro s k out hv hs h
    have hl := length_remainingBytes hv
    rw [hs, length_nil] at hl
    refine ⟨k, Exec.loop_done ?_, by rwa [flatMap_nil, append_nil]⟩
    simp [buildStringBody, ← hl]
  | cons c bytes ih =>
    intro s k out hv hs h
    have hl := length_remainingBytes hv
    rw [hs, length_cons] at hl
    obtain ⟨c1, hp, h1⟩ := putEscaped_composes cp c h
    have hr : (s.advance 1).remainingBytes = bytes := by
      rw [remainingBytes_advance, hs]
      rfl
    obtain ⟨c', hlo, h'⟩ := ih (hv.advance (by simp [hs])) hr h1
    refine ⟨c', ?_, by rwa [flatMap_cons, ← append_assoc]⟩
    rw [advance_advance, Nat.add_comm] at hlo
    refine (Exec.loop_next ?_).trans hlo
    simp only [buildStringBody, if_pos (show parcBufferRemaining s > 0 by omega),
      getUint8_spec hv hs, pure_bind, hp]

/-- The call appends the text and returns `r` with the composer. -/
def Renders {α : Type} (build : PARCBufferComposer → Prog (PARCBufferComposer × α)) (r : α)
    (text : List UInt8) : Prop :=
  ∀ ⦃k out⦄, Composes k out → ∃ k', build k = pure (k', r) ∧ Composes k' (out ++ text)

theorem Renders.of_appends {α : Type} {put text} (h : Appends put text) (r : α) :
    Renders (fun k => do pure (← put k, r)) r text := by
  intro k out hc
  obtain ⟨c', hp, h'⟩ := h hc
  refine ⟨c', ?_, h'⟩
  simp only [hp, pure_bind]

theorem Renders.map {α β : Type} {build text} {r : α} (h : Renders build r text) (f : α → β) :
    Renders (fun k => do
      let (k, r) ← build k
      pure (k, f r)) (f r) text := by
  intro k out hc
  obtain ⟨c', hp, h'⟩ := h hc
  refine ⟨c', ?_, h'⟩
  simp only [hp, pure_bind]

theorem buildStringString_spec {s} (hv : s.Valid) (cp : Bool) :
    Renders (buildStringString s · cp) (parcBufferRewind s) (stringText cp s.remainingBytes) := by
  intro k out h
  obtain ⟨c1, hp1, h1⟩ := putChar_composes quotationMark h
  obtain ⟨c2, hl, h2⟩ := buildString_loop cp _ hv rfl h1
  obtain ⟨c3, hp3, h3⟩ := putChar_composes quotationMark h2
  refine ⟨c3, ?_, ?_⟩
  · simp only [buildStringString, hp1, pure_bind, hl, hp3]
    rfl
  · simpa only [stringText, append_assoc, cons_append, nil_append] using h3

theorem putBlank_composes (cp : Bool) :
    Appends (fun k => if cp then pure k else parcBufferComposerPutChar k space) (blank cp) :=
  .ite .nil (putChar_composes space)

theorem buildStringAround_spec {α : Type} {cp} (first last : UInt8) {loop} {r : α} {text}
    (hl : Renders loop r text) :
    Renders (buildStringAround cp first last loop) r (aroundText cp first last text) := by
  intro k out h
  obtain ⟨c1, hp1, h1⟩ := putChar_composes first h
  obtain ⟨c2, hp2, h2⟩ := putBlank_composes cp h1
  obtain ⟨c3, hr, h3⟩ := hl h2
  obtain ⟨c4, hp4, h4⟩ := putBlank_composes cp h3
  obtain ⟨c5, hp5, h5⟩ := putChar_composes last h4
  refine ⟨c5, ?_, ?_⟩
  · simp only [buildStringAround, hp1, pure_bind, hp2, hr, hp4, hp5]
  · simpa only [aroundText, append_assoc, cons_append, nil_append] using h5

/-- The strings and names are valid buffers. -/
def validBuffers : Leaves := ⟨PARCBuffer.Valid, PARCBuffer.Valid, fun _ => True⟩

mutual

/-- **Rendering appends the text** and rewinds the strings and names. -/
theorem buildString_spec (cp : Bool) : ∀ v, Everywhere validBuffers v →
    Renders (parcJSONValueBuildString cp v) (rewound v) (valueText cp v)
  | .boolean _, _ => .of_appends (putString_composes _) _
  | .string _, hv => (buildStringString_spec hv cp).map _
  | .number number, _ => .of_appends (buildStringNumber_spec number) _
  | .array array, hv => (buildStringAround_spec beginArray endArray
      (buildStringElements_spec cp [] array hv)).map _
  | .object members, hv => (buildStringAround_spec beginObject endObject
      (buildStringMembers_spec cp [] members hv)).map _
  | .null, _ => .of_appends (putString_composes _) _

theorem buildStringElements_spec (cp : Bool) (next : List UInt8) :
    ∀ a, EveryElement validBuffers a →
    Renders (buildStringElements cp next a) (rewoundElements a) (elementsText cp next a)
  | [], _ => .of_appends .nil []
  | value :: a, hv => by
    intro k out h
    obtain ⟨c1, hp1, h1⟩ := putString_composes next h
    obtain ⟨c2, hp2, h2⟩ := buildString_spec cp value hv.1 h1
    obtain ⟨c3, hp3, h3⟩ := buildStringElements_spec cp (separator cp) a hv.2 h2
    refine ⟨c3, ?_, by simpa only [elementsText, append_assoc] using h3⟩
    simp only [buildStringElements, hp1, pure_bind, hp2, hp3, rewoundElements]

theorem buildStringMembers_spec (cp : Bool) (next : List UInt8) :
    ∀ ms, EveryMember validBuffers ms →
    Renders (buildStringMembers cp next ms) (rewoundMembers ms) (membersText cp next ms)
  | [], _ => .of_appends .nil []
  | (name, value) :: ms, hv => by
    intro k out h
    obtain ⟨c1, hp1, h1⟩ := putString_composes next h
    obtain ⟨c2, hp2, h2⟩ := putUint8_composes quotationMark h1
    obtain ⟨c3, hp3, h3⟩ := putBuffer_composes hv.1 h2
    obtain ⟨c4, hp4, h4⟩ := putString_composes (afterName cp) h3
    obtain ⟨c5, hp5, h5⟩ := buildString_spec cp value hv.2.1 h4
    obtain ⟨c6, hp6, h6⟩ := buildStringMembers_spec cp (separator cp) ms hv.2.2 h5
    refine ⟨c6, ?_, ?_⟩
    · simp only [buildStringMembers, hp1, pure_bind, hp2, hp3, hp4, hp5, hp6, rewoundMembers]
    · simpa only [membersText, append_assoc, cons_append, nil_append] using h6

end

/-! ## Equality -/

/-- Two valid buffers with the same bytes to read. -/
structure SameBytes (x y : PARCBuffer) : Prop where
  valid : x.Valid
  valid' : y.Valid
  bytes : x.remainingBytes = y.remainingBytes

/-- Two numbers in whole and fraction form; the length of the fraction is not
compared. -/
structure SameNumber (x y : Number) : Prop where
  exact : x.internalDoubleRepresentation = false
  exact' : y.internalDoubleRepresentation = false
  sign : x.sign = y.sign
  whole : x.whole = y.whole
  fraction : x.fraction = y.fraction
  exponent : x.exponent = y.exponent

mutual

inductive Agrees : PARCJSONValue → PARCJSONValue → Prop
  | boolean (boolean : Bool) : Agrees (.boolean boolean) (.boolean boolean)
  | string {x y : PARCBuffer} : SameBytes x y → Agrees (.string x) (.string y)
  | number {x y : Number} : SameNumber x y → Agrees (.number x) (.number y)
  | array {x y : PARCJSONArray} : AgreeElements x y → Agrees (.array x) (.array y)
  | object {x y : PARCJSON} : AgreeMembers x y → Agrees (.object x) (.object y)
  | null : Agrees .null .null

inductive AgreeElements : PARCJSONArray → PARCJSONArray → Prop
  | nil : AgreeElements [] []
  | cons {v w : PARCJSONValue} {x y : PARCJSONArray} :
      Agrees v w → AgreeElements x y → AgreeElements (v :: x) (w :: y)

inductive AgreeMembers : PARCJSON → PARCJSON → Prop
  | nil : AgreeMembers [] []
  | cons {m n : PARCBuffer} {v w : PARCJSONValue} {x y : PARCJSON} :
      SameBytes m n → Agrees v w → AgreeMembers x y → AgreeMembers ((m, v) :: x) ((n, w) :: y)

end

theorem SameBytes.equals {x y} (h : SameBytes x y) : parcBufferEquals x y = pure true := by
  rw [equals_spec h.valid h.valid', decide_eq_true h.bytes]

theorem SameNumber.equals {x y} (h : SameNumber x y) : equalsNumber x y = true := by
  simp [equalsNumber, h.exact, h.sign, h.whole, h.fraction, h.exponent]

theorem AgreeElements.length_eq : ∀ {x y}, AgreeElements x y → x.length = y.length
  | _, _, .nil => rfl
  | _, _, .cons _ h => congrArg (· + 1) h.length_eq

theorem AgreeMembers.length_eq : ∀ {x y}, AgreeMembers x y → x.length = y.length
  | _, _, .nil => rfl
  | _, _, .cons _ _ h => congrArg (· + 1) h.length_eq

mutual

/-- **Values that agree are equal**, for `parcJSONValue_Equals`. -/
theorem Agrees.equals : ∀ {v w}, Agrees v w → parcJSONValueEquals v w = pure true
  | _, _, .boolean boolean => by simp [parcJSONValueEquals]
  | _, _, .string h | _, _, .number h => by rw [parcJSONValueEquals, h.equals]
  | _, _, .array h => by rw [parcJSONValueEquals, if_pos h.length_eq, AgreeElements.equals h]
  | _, _, .object h => by rw [parcJSONValueEquals, if_pos h.length_eq, AgreeMembers.equals h]
  | _, _, .null => by rw [parcJSONValueEquals]

theorem AgreeElements.equals : ∀ {x y}, AgreeElements x y → elementsEqual x y = pure true
  | _, _, .nil => by rw [elementsEqual]
  | _, _, .cons hv h => by
    rw [elementsEqual, Agrees.equals hv, pure_bind, if_pos rfl, AgreeElements.equals h]

theorem AgreeMembers.equals : ∀ {x y}, AgreeMembers x y → memberListEquals x y = pure true
  | _, _, .nil => by rw [memberListEquals]
  | _, _, .cons hn hv h => by
    rw [memberListEquals, hn.equals, pure_bind, if_pos rfl, Agrees.equals hv, pure_bind,
      if_pos rfl, AgreeMembers.equals h]

end

theorem SameBytes.symm {x y} (h : SameBytes x y) : SameBytes y x :=
  ⟨h.valid', h.valid, h.bytes.symm⟩

theorem SameNumber.symm {x y} (h : SameNumber x y) : SameNumber y x :=
  ⟨h.exact', h.exact, h.sign.symm, h.whole.symm, h.fraction.symm, h.exponent.symm⟩

mutual

theorem Agrees.symm : ∀ {v w}, Agrees v w → Agrees w v
  | _, _, .boolean boolean => .boolean boolean
  | _, _, .string h => .string h.symm
  | _, _, .number h => .number h.symm
  | _, _, .array h => .array (AgreeElements.symm h)
  | _, _, .object h => .object (AgreeMembers.symm h)
  | _, _, .null => .null

theorem AgreeElements.symm : ∀ {x y}, AgreeElements x y → AgreeElements y x
  | _, _, .nil => .nil
  | _, _, .cons hv h => .cons (Agrees.symm hv) (AgreeElements.symm h)

theorem AgreeMembers.symm : ∀ {x y}, AgreeMembers x y → AgreeMembers y x
  | _, _, .nil => .nil
  | _, _, .cons hn hv h => .cons hn.symm (Agrees.symm hv) (AgreeMembers.symm h)

end

/-- The strings and names are at position 0. -/
def atStart : Leaves := ⟨(·.position = 0), (·.position = 0), fun _ => True⟩

theorem SameBytes.rewind {x y} (h : SameBytes x y) (hx : x.position = 0) :
    SameBytes (parcBufferRewind x) y := by
  refine ⟨⟨by simp [parcBufferRewind], Nat.zero_le _, h.valid.limit_le, h.valid.capacity_le⟩,
    h.valid', ?_⟩
  rw [← h.bytes]
  simp only [PARCBuffer.remainingBytes, parcBufferRewind, hx]

mutual

theorem Agrees.rewound : ∀ {v w}, Agrees v w → Everywhere atStart v → Agrees (rewound v) w
  | _, _, .boolean boolean, _ => .boolean boolean
  | _, _, .string h, hx => .string (h.rewind hx)
  | _, _, .number h, _ => .number h
  | _, _, .array h, hx => .array (AgreeElements.rewound h hx)
  | _, _, .object h, hx => .object (AgreeMembers.rewound h hx)
  | _, _, .null, _ => .null

theorem AgreeElements.rewound : ∀ {x y}, AgreeElements x y →
    EveryElement atStart x → AgreeElements (rewoundElements x) y
  | _, _, .nil, _ => .nil
  | _, _, .cons hv h, hx => .cons (Agrees.rewound hv hx.1) (AgreeElements.rewound h hx.2)

theorem AgreeMembers.rewound : ∀ {x y}, AgreeMembers x y →
    EveryMember atStart x → AgreeMembers (rewoundMembers x) y
  | _, _, .nil, _ => .nil
  | _, _, .cons hn hv h, hx => .cons (hn.rewind hx.1) (Agrees.rewound hv hx.2.1)
      (AgreeMembers.rewound h hx.2.2)

end

end Libparc.JSON
