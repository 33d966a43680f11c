import LayeredStore.Proofs.RunNames
import Mathlib.Algebra.GroupWithZero.Nat

/-!
# Which names are read as run files

`RunName.parse` reads more names than `RunName.text` writes. A name denotes a run file if it consists of
a numeral and of the ending of a kind (`RunName.parse_eq_some_iff`), and the numeral may have a plus sign
and any number of zeros in front. It is the name that is written just if it is unsigned and padded to
eight digits, no more (`RunName.text_eq_iff`).
-/

namespace LayeredStore

namespace RunName

/-! ## Digits -/

theorem digitsToNat_cons (c : Char) (rest : List Char) :
    digitsToNat (c :: rest) = 10 ^ rest.length * (c.toNat - '0'.toNat) + digitsToNat rest := by
  rw [digitsToNat_eq, digitsToNat_eq, Nat.ofDigitChars_cons, Nat.ofDigitChars_eq_ofDigitChars_zero,
    Nat.mul_zero, Nat.zero_add]

/-- The value of a digit, and that it tells the digit. -/
theorem value_of_isDigit {c : Char} (h : c.isDigit = true) :
    c.toNat - '0'.toNat ≤ 9 ∧ c.toNat = '0'.toNat + (c.toNat - '0'.toNat) := by
  have hzero : '0'.toNat = 48 := rfl
  obtain ⟨hlow, hhigh⟩ : 48 ≤ c.toNat ∧ c.toNat ≤ 57 := by
    simpa [Char.isDigit, UInt32.le_iff_toNat_le] using h
  omega

theorem digitsToNat_lt {digits : List Char} (h : ∀ c ∈ digits, c.isDigit = true) :
    digitsToNat digits < 10 ^ digits.length := by
  induction digits with
  | nil => decide
  | cons c rest ih =>
    obtain ⟨hc, hrest⟩ := List.forall_mem_cons.mp h
    have hle := Nat.mul_le_mul_left (10 ^ rest.length) (value_of_isDigit hc).1
    have hlt := ih hrest
    rw [digitsToNat_cons, List.length_cons, Nat.pow_succ]
    omega

/-- As many digits of the same value are the same. -/
theorem digits_inj {digits others : List Char} (h : ∀ c ∈ digits, c.isDigit = true)
    (h' : ∀ c ∈ others, c.isDigit = true) (hlength : digits.length = others.length)
    (hvalue : digitsToNat digits = digitsToNat others) : digits = others := by
  induction digits generalizing others with
  | nil => exact (List.length_eq_zero_iff.mp hlength.symm).symm
  | cons c rest ih =>
    cases others with
    | nil => cases hlength
    | cons c' rest' =>
      obtain ⟨hc, hrest⟩ := List.forall_mem_cons.mp h
      obtain ⟨hc', hrest'⟩ := List.forall_mem_cons.mp h'
      have hlength : rest.length = rest'.length := Nat.succ.inj hlength
      rw [digitsToNat_cons, digitsToNat_cons, hlength] at hvalue
      -- the first digits are the quotients, and the others have the remainders for their values
      have hpos : 0 < 10 ^ rest'.length := Nat.pow_pos (by decide)
      have hlt := hlength ▸ digitsToNat_lt hrest
      have hlt' := digitsToNat_lt hrest'
      have hfirst := congrArg (· / 10 ^ rest'.length) hvalue
      have hlast := congrArg (· % 10 ^ rest'.length) hvalue
      simp only [Nat.mul_add_div hpos, Nat.div_eq_of_lt hlt, Nat.div_eq_of_lt hlt',
        Nat.add_zero] at hfirst
      simp only [Nat.mul_add_mod, Nat.mod_eq_of_lt hlt, Nat.mod_eq_of_lt hlt'] at hlast
      have hchar : c = c' := Char.toNat_inj.mp (by
        rw [(value_of_isDigit hc).2, (value_of_isDigit hc').2, hfirst])
      rw [hchar, ih hrest hrest' hlength hlast]

theorem length_paddedDigits (n : Nat) :
    (paddedDigits n).length = max 8 (Nat.toDigits 10 n).length := by
  rw [paddedDigits, List.length_append, List.length_replicate]
  omega

/-- Digits are those that are written if there are eight of them, or more without a zero in front. -/
theorem paddedDigits_eq_iff {digits : List Char} (h : ∀ c ∈ digits, c.isDigit = true) :
    paddedDigits (digitsToNat digits) = digits ↔
      8 ≤ digits.length ∧ (8 < digits.length → digits.head? ≠ some '0') := by
  have hbound {n length : Nat} (hlength : 0 < length) :
      (Nat.toDigits 10 n).length ≤ length ↔ n < 10 ^ length :=
    Nat.length_toDigits_le_iff (by decide) hlength
  have hwritten := length_paddedDigits (digitsToNat digits)
  have hlt := digitsToNat_lt h
  constructor
  · intro heq
    rw [heq] at hwritten
    refine ⟨by omega, fun hlong hzero => ?_⟩
    obtain ⟨rest, rfl⟩ := List.head?_eq_some_iff.mp hzero
    rw [List.length_cons] at hlong hwritten
    -- without the zero it is the same number, which has fewer digits then
    have hvalue : digitsToNat ('0' :: rest) = digitsToNat rest := by
      rw [digitsToNat_cons, Nat.sub_self, Nat.mul_zero, Nat.zero_add]
    have hrest := digitsToNat_lt (List.forall_mem_cons.mp h).2
    have hshort := (hbound (by omega : 0 < rest.length)).mpr hrest
    rw [hvalue] at hwritten
    omega
  · rintro ⟨hpadded, hshortest⟩
    refine digits_inj (fun _ => isDigit_of_mem_paddedDigits) h ?_ (digitsToNat_paddedDigits _)
    have hle := (hbound (by omega : 0 < digits.length)).mpr hlt
    rcases Nat.lt_or_eq_of_le hpadded with hlong | height
    swap
    · omega
    cases digits with
    | nil => cases hlong
    | cons c rest =>
      have hc := value_of_isDigit (h c List.mem_cons_self)
      have hne : c.toNat ≠ '0'.toNat := by
        intro heq
        exact hshortest hlong (by rw [Char.toNat_inj.mp heq]; rfl)
      have hge : 10 ^ rest.length ≤ digitsToNat (c :: rest) := by
        rw [digitsToNat_cons]
        exact Nat.le_add_right_of_le (Nat.le_mul_of_pos_right _ (by omega))
      have hlength : (c :: rest).length = rest.length + 1 := rfl
      have hmany := mt (hbound (by omega : 0 < rest.length)).mp (Nat.not_lt.mpr hge)
      omega

/-! ## Numerals -/

/-- A numeral spells a number: it consists of decimal digits, perhaps after a plus sign. -/
def Spells (numeral : List Char) (id : Nat) : Prop :=
  ∃ digits, (numeral = digits ∨ numeral = '+' :: digits) ∧ digits ≠ [] ∧
    (∀ c ∈ digits, c.isDigit = true) ∧ digitsToNat digits = id

/-- A numeral has the form in which numbers are written. -/
structure Standard (numeral : List Char) : Prop where
  unsigned : numeral.head? ≠ some '+'
  padded : 8 ≤ numeral.length
  shortest : 8 < numeral.length → numeral.head? ≠ some '0'

theorem parseId_eq_some_iff {numeral : List Char} {id : Nat} :
    parseId numeral = some id ↔ id < idLimit ∧ Spells numeral id := by
  constructor
  · intro h
    obtain ⟨digits, hdigits, hparse⟩ : ∃ digits, (numeral = digits ∨ numeral = '+' :: digits) ∧
        parseId numeral = if digits.isEmpty || !digits.all Char.isDigit then none
          else if digitsToNat digits < idLimit then some (digitsToNat digits) else none := by
      unfold parseId
      split
      · exact ⟨_, .inr rfl, rfl⟩
      · exact ⟨_, .inl rfl, rfl⟩
    rw [hparse] at h
    simp only [Bool.or_eq_true, List.isEmpty_iff, Bool.not_eq_true', Option.ite_none_left_eq_some,
      not_or, Bool.not_eq_false, List.all_eq_true, Option.ite_none_right_eq_some,
      Option.some.injEq] at h
    obtain ⟨⟨hne, hall⟩, hlt, rfl⟩ := h
    exact ⟨hlt, digits, hdigits, hne, hall, rfl⟩
  · rintro ⟨hlt, digits, rfl | rfl, hne, hall, rfl⟩
    · exact parseId_of_digits hne hall hlt
    · have hall : digits.all Char.isDigit = true := List.all_eq_true.mpr hall
      simp [parseId, hne, hall, hlt]

/-- Of the numerals that spell a number one is standard, and this one is written. -/
theorem paddedDigits_eq_numeral_iff {numeral : List Char} {id : Nat} (h : Spells numeral id) :
    paddedDigits id = numeral ↔ Standard numeral := by
  obtain ⟨digits, rfl | rfl, hne, hall, rfl⟩ := h
  · rw [paddedDigits_eq_iff hall]
    refine ⟨fun h => ⟨fun hplus => ?_, h.1, h.2⟩, fun h => ⟨h.padded, h.shortest⟩⟩
    exact absurd (hall '+' (List.mem_of_mem_head? hplus)) (by decide)
  · refine ⟨fun heq => ?_, fun h => absurd rfl h.unsigned⟩
    have hplus : '+' ∈ paddedDigits (digitsToNat digits) := heq ▸ List.mem_cons_self
    exact absurd (isDigit_of_mem_paddedDigits hplus) (by decide)

/-! ## Names -/

/-- A text denotes a run file if it consists of a numeral and of the ending of a kind. -/
theorem parse_eq_some_iff {text : String} {name : RunName} : parse text = some name ↔
    name.id < idLimit ∧ ∃ numeral, text.toList = numeral ++ name.kind.suffix ∧
      Spells numeral name.id := by
  constructor
  · intro h
    obtain ⟨numeral, hends, hid⟩ := exists_stem_of_parse h
    obtain ⟨hlt, hspells⟩ := parseId_eq_some_iff.mp hid
    exact ⟨hlt, numeral, hends, hspells⟩
  · rintro ⟨hlt, numeral, hends, hspells⟩
    rw [parse_of_stem hends, parseId_eq_some_iff.mpr ⟨hlt, hspells⟩]
    rfl

/-- What is written for a run file is read as this one, if as any. -/
theorem eq_of_parse_text {name other : RunName} (h : parse name.text = some other) : other = name := by
  have hends : name.text.toList = paddedDigits name.id ++ name.kind.suffix := String.toList_ofList
  rw [parse_of_stem hends, Option.map_eq_some_iff] at h
  obtain ⟨id, hid, rfl⟩ := h
  obtain ⟨-, digits, hdigits | hplus, -, -, rfl⟩ := parseId_eq_some_iff.mp hid
  · rw [← hdigits, digitsToNat_paddedDigits]
  · have hdigit : '+'.isDigit = true :=
      isDigit_of_mem_paddedDigits (n := name.id) (hplus ▸ List.mem_cons_self)
    exact absurd hdigit (by decide)

/-- A text with a numeral is the name that is written for the number just if the numeral is standard. -/
theorem text_eq_iff {text : String} {name : RunName} {numeral : List Char}
    (hends : text.toList = numeral ++ name.kind.suffix) (h : Spells numeral name.id) :
    name.text = text ↔ Standard numeral := by
  rw [← paddedDigits_eq_numeral_iff h, ← String.toList_inj, RunName.text, String.toList_ofList, hends,
    List.append_cancel_right_eq]

end RunName

end LayeredStore
