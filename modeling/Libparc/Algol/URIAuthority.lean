import Libparc.Decimal
import Libparc.Runtime
import Libparc.Strtol

/-! # parc_URIAuthority

User info ends at the first `@`, and a port is behind the last colon, unless that is inside of
brackets. A port is stored through a `short`, and `parcURIAuthority_Equals` compares user info
with `strcmp` whether there is one or not. Strings are the characters in front of their NUL. -/
namespace Libparc.URIAuthority
open Strtol Exec List Option Decimal

@[ext] structure PARCURIAuthority where
  userinfo : Option (List UInt8)
  hostName : Option (List UInt8)
  port : Int
  deriving DecidableEq

def atSign : UInt8 := 64
def colon : UInt8 := 58
def leftBracket : UInt8 := 91
def rightBracket : UInt8 := 93

/-- The place of the first such character. -/
def strchr (c : UInt8) : List UInt8 → Option Nat
  | [] => none
  | d :: s => if d = c then some 0 else (strchr c s).map (· + 1)

/-- The place of the last such character. -/
def strrchr (c : UInt8) : List UInt8 → Option Nat
  | [] => none
  | d :: s =>
    match strrchr c s with
    | some i => some (i + 1)
    | none => if d = c then some 0 else none

/-- `(short) strtol(string, NULL, 10)`, as a `long`. -/
def parsePort (string : List UInt8) : Int := (Int16.ofInt (strtol 10 string).1).toInt

/-- What is behind the user info. -/
def parseHostPort (userinfo : Option (List UInt8)) (authority : List UInt8) : PARCURIAuthority :=
  match strrchr rightBracket authority, strrchr colon authority with
  | some bracket, lastColon =>
    let port := match lastColon with
      | some lastColon =>
        if lastColon > bracket then parsePort (authority.drop (lastColon + 1)) else 0
      | none => 0
    ⟨userinfo, some (authority.take (bracket + 1)), port⟩
  | none, some lastColon =>
    ⟨userinfo, some (authority.take lastColon), parsePort (authority.drop (lastColon + 1))⟩
  | none, none => ⟨userinfo, some authority, 0⟩

def parcURIAuthorityParse (authority : List UInt8) : PARCURIAuthority :=
  match strchr atSign authority with
  | some place => parseHostPort (some (authority.take place)) (authority.drop (place + 1))
  | none => parseHostPort none authority

/-- Whether `strcmp` gives zero; it follows a NULL. -/
def strcmpEquals : Option (List UInt8) → Option (List UInt8) → Prog Bool
  | some x, some y => pure (x = y)
  | _, _ => throw .memoryFault

/-- Two pointers, either of which may be NULL, into a memory of authorities. -/
def parcURIAuthorityEquals {ι : Type} [DecidableEq ι] (memory : ι → PARCURIAuthority)
    (authA authB : Option ι) : Prog Bool :=
  if authA = authB then pure true
  else match authA, authB with
    | some a, some b => do
      if ← strcmpEquals (memory a).hostName (memory b).hostName then
        if ← strcmpEquals (memory a).userinfo (memory b).userinfo then
          pure ((memory a).port = (memory b).port)
        else pure false
      else pure false
    | _, _ => pure false

/-! ## Parsing -/

/-- The parts of an authority. -/
structure Parts where
  userInfo : Option (List UInt8)
  host : List UInt8
  port : Option UInt16
  userInfo_chars : ∀ text ∈ userInfo, atSign ∉ text
  host_chars : (∀ c ∈ host, c ≠ atSign ∧ c ≠ colon ∧ c ≠ leftBracket ∧ c ≠ rightBracket) ∨
    ∃ literal, host = leftBracket :: literal ++ [rightBracket] ∧
      ∀ c ∈ literal, c ≠ atSign ∧ c ≠ leftBracket ∧ c ≠ rightBracket

def portDigits (port : UInt16) : List UInt8 :=
  (digits port.toNat).map fun d => UInt8.ofNat (48 + d)

def Parts.hostPort (parts : Parts) : List UInt8 :=
  parts.host ++ parts.port.elim [] fun port => colon :: portDigits port

def Parts.text (parts : Parts) : List UInt8 :=
  parts.userInfo.elim parts.hostPort fun text => text ++ atSign :: parts.hostPort

/-- A missing port is zero. -/
def Parts.Recovered (parts : Parts) : Prop :=
  parcURIAuthorityParse parts.text =
    ⟨parts.userInfo, some parts.host, parts.port.elim 0 fun port => port.toNat⟩

section
variable {c : UInt8} {s t : List UInt8}

theorem strchr_append (hs : c ∉ s) : strchr c (s ++ c :: t) = some s.length := by
  induction s with
  | nil => exact if_pos rfl
  | cons d s ih =>
    obtain ⟨hd, hs⟩ := not_or.mp (mt mem_cons.mpr hs)
    rw [cons_append, strchr, if_neg (Ne.symm hd), ih hs]
    rfl

theorem strchr_none (hs : c ∉ s) : strchr c s = none := by
  induction s with
  | nil => rfl
  | cons d s ih =>
    obtain ⟨hd, hs⟩ := not_or.mp (mt mem_cons.mpr hs)
    rw [strchr, if_neg (Ne.symm hd), ih hs]
    rfl

theorem strrchr_none (hs : c ∉ s) : strrchr c s = none := by
  induction s with
  | nil => rfl
  | cons d s ih =>
    obtain ⟨hd, hs⟩ := not_or.mp (mt mem_cons.mpr hs)
    rw [strrchr, ih hs]
    exact if_neg (Ne.symm hd)

theorem strrchr_append (s : List UInt8) (ht : c ∉ t) : strrchr c (s ++ c :: t) = some s.length := by
  induction s with
  | nil =>
    rw [nil_append, strrchr, strrchr_none ht]
    exact if_pos rfl
  | cons d s ih => rw [cons_append, strrchr, ih, length_cons]

theorem strrchr_lt {i} (h : strrchr c s = some i) : i < s.length := by
  induction s generalizing i with
  | nil => cases h
  | cons d s ih =>
    rw [strrchr] at h
    split at h
    · rename_i j hj
      cases h
      exact Nat.succ_lt_succ (ih hj)
    · split_ifs at h
      cases h
      exact Nat.succ_pos _

end

theorem portDigits_chars (port : UInt16) : ∀ c ∈ portDigits port, 48 ≤ c ∧ c ≤ 57 := by
  intro c hc
  obtain ⟨d, hd, rfl⟩ := mem_map.mp hc
  have := digit_lt hd
  interval_cases d <;> decide

theorem parsePort_portDigits (port : UInt16) :
    parsePort (portDigits port) = (Int16.ofInt port.toNat).toInt := by
  have hdi : ∀ c ∈ portDigits port, isDigit 10 c := by
    intro c hc
    obtain ⟨d, hd, rfl⟩ := mem_map.mp hc
    have := digit_lt hd
    interval_cases d <;> decide
  have hv : value 10 (portDigits port) = port.toNat := by
    rw [value, portDigits, foldl_map]
    refine Eq.trans (foldl_ext _ _ _ fun v d hd => ?_) (read_digits port.toNat)
    have := digit_lt hd
    interval_cases d <;> rfl
  have hne : portDigits port ≠ [] := by
    obtain ⟨d, ds, hdg⟩ := digits_eq_cons port.toNat
    simp [portDigits, hdg]
  have hlt := port.toNat_lt
  have hr : strtol 10 (portDigits port ++ []) = (_, []) :=
    strtol_digits (by decide) hne hdi (by simp) (by simp) (by rw [hv]; omega)
  rw [append_nil, hv] at hr
  rw [parsePort, hr]

theorem Parts.atSign_notMem (parts : Parts) : atSign ∉ parts.hostPort := by
  have hp : atSign ∉ (parts.port.elim [] fun port => colon :: portDigits port) := by
    cases parts.port with
    | none => exact not_mem_nil
    | some port =>
      intro hm
      rcases mem_cons.mp hm with h | h
      · exact absurd h (by decide)
      · exact absurd (portDigits_chars port _ h).2 (by decide)
  rw [hostPort, mem_append, not_or]
  refine ⟨fun hm => ?_, hp⟩
  rcases parts.host_chars with hpl | ⟨literal, hhost, hl⟩
  · exact (hpl _ hm).1 rfl
  · rw [hhost, mem_append, mem_cons, mem_singleton] at hm
    rcases hm with (h | h) | h
    · exact absurd h (by decide)
    · exact (hl _ h).1 rfl
    · exact absurd h (by decide)

theorem Parts.parseHostPort_eq (parts : Parts) (ui : Option (List UInt8)) :
    parseHostPort ui parts.hostPort = ⟨ui, some parts.host,
      parts.port.elim 0 fun port => (Int16.ofInt port.toNat).toInt⟩ := by
  have hd : ∀ port, colon ∉ portDigits port ∧ rightBracket ∉ portDigits port := fun port =>
    ⟨fun h => absurd (portDigits_chars port _ h).2 (by decide),
      fun h => absurd (portDigits_chars port _ h).2 (by decide)⟩
  unfold hostPort
  rcases parts.host_chars with hp | ⟨literal, hhost, hl⟩
  · have hc : colon ∉ parts.host := fun h => (hp _ h).2.1 rfl
    have hb : rightBracket ∉ parts.host := fun h => (hp _ h).2.2.2 rfl
    cases parts.port with
    | none =>
      simp only [elim_none, append_nil, parseHostPort, strrchr_none hb, strrchr_none hc]
    | some port =>
      have hb' : rightBracket ∉ parts.host ++ colon :: portDigits port := by
        simp [hb, (hd port).2]
        decide
      simp only [elim_some, parseHostPort, strrchr_none hb',
        strrchr_append parts.host (hd port).1]
      simp [parsePort_portDigits]
  · have hle : parts.host.length = (leftBracket :: literal).length + 1 := by simp [hhost]
    have hla : ∀ tail, rightBracket ∉ tail → strrchr rightBracket (parts.host ++ tail) =
        some (leftBracket :: literal).length := by
      intro tail ht
      rw [hhost, append_assoc]
      exact strrchr_append _ ht
    cases parts.port with
    | none =>
      have hb := hla [] not_mem_nil
      rw [append_nil] at hb
      simp only [elim_none, append_nil, parseHostPort, hb]
      rw [← hle, take_length]
      split
      · rename_i lastColon hc
        have := strrchr_lt hc
        rw [if_neg (by omega)]
      · rfl
    | some port =>
      have hb := hla (colon :: portDigits port) (by simp [(hd port).2]; decide)
      simp only [elim_some, parseHostPort, hb, strrchr_append parts.host (hd port).1]
      rw [← hle, if_pos (by omega), take_left, ← parsePort_portDigits]
      simp

theorem Parts.parse_eq (parts : Parts) : parcURIAuthorityParse parts.text =
    ⟨parts.userInfo, some parts.host,
      parts.port.elim 0 fun port => (Int16.ofInt port.toNat).toInt⟩ := by
  unfold parcURIAuthorityParse text
  cases hu : parts.userInfo with
  | none => rw [elim_none, strchr_none parts.atSign_notMem, parts.parseHostPort_eq]
  | some text =>
    rw [elim_some, strchr_append (parts.userInfo_chars text hu)]
    simp [parts.parseHostPort_eq]

theorem Parts.recovered_iff_port (parts : Parts) :
    parts.Recovered ↔ ∀ port ∈ parts.port, port.toNat < 2 ^ 15 := by
  rw [Recovered, parts.parse_eq, PARCURIAuthority.mk.injEq, and_iff_right rfl, and_iff_right rfl]
  cases parts.port with
  | none => simp
  | some port =>
    simp only [elim_some, mem_some_iff, forall_eq']
    constructor
    · intro h
      have := Int16.toInt_lt (Int16.ofInt port.toNat)
      omega
    · intro h
      exact Int16.toInt_ofInt_of_le (by omega) (by omega)

/-! ## Equality -/

section
variable {ι : Type} [DecidableEq ι] (memory : ι → PARCURIAuthority)

/-- No comparison crashes, and the result is that of an equivalence. -/
structure ComparesWell : Prop where
  returns : ∀ i j, Returns (parcURIAuthorityEquals memory (some i) (some j))
  equivalence : Equivalence fun i j => parcURIAuthorityEquals memory (some i) (some j) = pure true

/-- Different authorities of one host have user info. -/
def Informed : Prop := ∀ i j, i ≠ j → (memory i).hostName = (memory j).hostName →
  (memory i).userinfo.isSome ∧ (memory j).userinfo.isSome

theorem parse_hostName (text : List UInt8) :
    ∃ host, (parcURIAuthorityParse text).hostName = some host := by
  have hhost : ∀ ui rest, ∃ host, (parseHostPort ui rest).hostName = some host := by
    intro ui rest
    unfold parseHostPort
    split <;> exact ⟨_, rfl⟩
  unfold parcURIAuthorityParse
  split <;> exact hhost _ _

variable {memory} (hh : ∀ i, ∃ host, (memory i).hostName = some host) {i j : ι}
include hh

theorem equals_eq (hne : i ≠ j) : parcURIAuthorityEquals memory (some i) (some j) =
    if (memory i).hostName = (memory j).hostName then do
      if ← strcmpEquals (memory i).userinfo (memory j).userinfo then
        pure ((memory i).port = (memory j).port)
      else pure false
    else pure false := by
  obtain ⟨x, hx⟩ := hh i
  obtain ⟨y, hy⟩ := hh j
  rw [parcURIAuthorityEquals, if_neg (fun h => hne (some.inj h))]
  simp [strcmpEquals, hx, hy]

theorem equals_of_informed (h : Informed memory) :
    parcURIAuthorityEquals memory (some i) (some j) = pure (decide (memory i = memory j)) := by
  by_cases hne : i = j
  · rw [hne, parcURIAuthorityEquals, if_pos rfl, decide_eq_true rfl]
  · rw [equals_eq hh hne]
    split_ifs with hs
    · obtain ⟨hi, hj⟩ := h i j hne hs
      obtain ⟨x, hx⟩ := isSome_iff_exists.mp hi
      obtain ⟨y, hy⟩ := isSome_iff_exists.mp hj
      have hf : memory i = memory j ↔ x = y ∧ (memory i).port = (memory j).port := by
        rw [PARCURIAuthority.ext_iff, hx, hy, some.injEq, and_iff_right hs]
      simp only [hx, hy, strcmpEquals, pure_bind, hf, decide_eq_true_eq]
      split_ifs with hxy <;> simp [hxy]
    · rw [decide_eq_false fun heq => hs (by rw [heq])]

theorem comparesWell_iff : ComparesWell memory ↔ Informed memory := by
  constructor
  · intro h i j hne hs
    obtain ⟨r, hr⟩ := h.returns i j
    rw [equals_eq hh hne, if_pos hs] at hr
    obtain ⟨_, hc, -⟩ := bind_eq_pure.mp hr
    unfold strcmpEquals at hc
    split at hc
    · simp [*]
    · exact absurd hc throw_ne_pure
  · intro h
    have heq := fun i j => equals_of_informed hh h (i := i) (j := j)
    refine ⟨fun i j => ⟨_, heq i j⟩, ?_⟩
    simp only [heq, pure_inj, decide_eq_true_eq]
    exact ⟨fun _ => rfl, Eq.symm, Eq.trans⟩

end

/-- **Where authorities are right**: the parts of a text are recovered if its port fits in a
`short`, and parsed authorities are compared well if different ones of the same host all have
user info. -/
theorem authority_iff (parts : Parts) {ι : Type} [DecidableEq ι] (texts : ι → List UInt8) :
    (parts.Recovered ↔ ∀ port ∈ parts.port, port.toNat < 2 ^ 15) ∧
      (ComparesWell (fun i => parcURIAuthorityParse (texts i)) ↔
        Informed fun i => parcURIAuthorityParse (texts i)) :=
  ⟨parts.recovered_iff_port, comparesWell_iff fun i => parse_hostName (texts i)⟩

/-- `h:32768`. -/
def largePort : Parts :=
  ⟨none, [104], some 32768, nofun, .inl (forall_mem_singleton.mpr (by decide))⟩

/-- Port 32768 is negative, and two authorities without user info are not compared. -/
theorem authority_wrong :
    ¬ largePort.Recovered ∧ (parcURIAuthorityParse largePort.text).port = -32768 ∧
      parcURIAuthorityEquals (fun _ : Bool => parcURIAuthorityParse [104]) (some false)
        (some true) = throw .memoryFault := by
  refine ⟨largePort.recovered_iff_port.not.mpr fun h => ?_, by decide +kernel, rfl⟩
  exact absurd (h 32768 rfl) (by decide)

end Libparc.URIAuthority
