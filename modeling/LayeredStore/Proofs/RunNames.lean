import LayeredStore.Proofs.FolderOperations
import LayeredStore.Run.Name

/-!
# Names of run files are read back

`RunName.parse` reads every name that `RunName.text` writes (`RunName.parse_text`), so two run
files have two names (`RunName.text_inj`). In a folder whose path leaves room for them
(`Path.Roomy`) all of these names can be used.
-/

namespace LayeredStore

namespace RunName

/-! ## Digits -/

theorem digitsToNat_eq (digits : List Char) : digitsToNat digits = Nat.ofDigitChars 10 digits 0 := by
  rw [digitsToNat, Nat.ofDigitChars_eq_foldl]
  congr 1
  funext n c
  rw [Nat.mul_comm]

theorem digitsToNat_paddedDigits (n : Nat) : digitsToNat (paddedDigits n) = n := by
  rw [digitsToNat_eq, paddedDigits, Nat.ofDigitChars_append, Nat.ofDigitChars_replicate_zero,
    Nat.mul_zero, Nat.ofDigitChars_ten_toDigits]

theorem isDigit_of_mem_paddedDigits {n : Nat} {c : Char} (h : c ∈ paddedDigits n) :
    c.isDigit = true := by
  rcases List.mem_append.mp h with hzero | hdigit
  · rw [List.eq_of_mem_replicate hzero]
    decide
  · exact Nat.isDigit_of_mem_toDigits (by decide) (by decide) hdigit

theorem length_paddedDigits_pos (n : Nat) : 0 < (paddedDigits n).length := by
  have : 0 < (Nat.toDigits 10 n).length := Nat.length_toDigits_pos
  rw [paddedDigits, List.length_append]
  omega

theorem length_paddedDigits_le {n : Nat} (h : n < idLimit) : (paddedDigits n).length ≤ 20 := by
  have hlength : (Nat.toDigits 10 n).length ≤ 20 := by
    rw [Nat.length_toDigits_le_iff (by decide) (by decide)]
    exact Nat.lt_trans h (by decide)
  rw [paddedDigits, List.length_append, List.length_replicate]
  omega

theorem parseId_of_digits {digits : List Char} (hne : digits ≠ [])
    (hdigits : ∀ c ∈ digits, c.isDigit = true) (hlt : digitsToNat digits < idLimit) :
    parseId digits = some (digitsToNat digits) := by
  rw [parseId]
  · have hall : digits.all Char.isDigit = true := List.all_eq_true.mpr hdigits
    simp [hne, hall, hlt]
  · intro rest heq
    have hplus : '+'.isDigit = true := hdigits '+' (heq ▸ List.mem_cons_self)
    exact absurd hplus (by decide)

theorem parseId_paddedDigits {n : Nat} (h : n < idLimit) : parseId (paddedDigits n) = some n := by
  have hvalue := digitsToNat_paddedDigits n
  rw [parseId_of_digits (List.ne_nil_of_length_pos (length_paddedDigits_pos n))
    (fun _ => isDigit_of_mem_paddedDigits) (by rwa [hvalue]), hvalue]

/-! ## Names -/

theorem withoutSuffix?_eq_some_iff {suffix text stem : List Char} :
    withoutSuffix? suffix text = some stem ↔ text = stem ++ suffix := by
  rw [withoutSuffix?, Option.ite_none_right_eq_some, List.isSuffixOf_iff_suffix]
  constructor
  · rintro ⟨⟨front, rfl⟩, hstem⟩
    rw [List.length_append, Nat.add_sub_cancel, List.take_left, Option.some.injEq] at hstem
    rw [hstem]
  · rintro rfl
    refine ⟨List.suffix_append stem suffix, ?_⟩
    rw [List.length_append, Nat.add_sub_cancel, List.take_left]

/-- A text does not end in two ways. -/
theorem withoutSuffix?_eq_none {kind other : RunKind} (stem : List Char) (h : kind ≠ other) :
    withoutSuffix? kind.suffix (stem ++ other.suffix) = none := by
  refine Option.eq_none_iff_forall_ne_some.mpr fun front hfront => ?_
  have hlast := congrArg List.getLast? (withoutSuffix?_eq_some_iff.mp hfront)
  have hne (kind : RunKind) : kind.suffix ≠ [] := by cases kind <;> decide
  rw [List.getLast?_append_of_ne_nil _ (hne kind), List.getLast?_append_of_ne_nil _ (hne other)] at hlast
  cases kind <;> cases other <;> first | exact h rfl | exact absurd hlast (by decide)

/-- What a text denotes that ends as the names of a kind do. -/
theorem parse_of_stem {text : String} {kind : RunKind} {stem : List Char}
    (h : text.toList = stem ++ kind.suffix) : parse text = (parseId stem).map (RunName.mk kind) := by
  have hstem : withoutSuffix? kind.suffix (stem ++ kind.suffix) = some stem :=
    withoutSuffix?_eq_some_iff.mpr rfl
  have hothers (other : RunKind) (hne : other ≠ kind) :
      withoutSuffix? other.suffix (stem ++ kind.suffix) = none := withoutSuffix?_eq_none stem hne
  rw [parse, h]
  cases kind with
  | unfinished => simp [hstem]
  | finished => simp [hstem, hothers .unfinished (by decide)]
  | merged => simp [hstem, hothers .unfinished (by decide), hothers .finished (by decide)]

/-- What denotes a run file ends as the names of its kind do. -/
theorem exists_stem_of_parse {text : String} {name : RunName} (h : parse text = some name) :
    ∃ stem, text.toList = stem ++ name.kind.suffix ∧ parseId stem = some name.id := by
  have hkind : ∃ kind stem, withoutSuffix? (RunKind.suffix kind) text.toList = some stem := by
    by_contra hnone
    simp only [not_exists, ← Option.eq_none_iff_forall_ne_some] at hnone
    rw [parse] at h
    simp [hnone] at h
  obtain ⟨kind, stem, hstem⟩ := hkind
  have hends := withoutSuffix?_eq_some_iff.mp hstem
  rw [parse_of_stem hends, Option.map_eq_some_iff] at h
  obtain ⟨id, hid, rfl⟩ := h
  exact ⟨stem, hends, hid⟩

theorem parse_text {name : RunName} (h : name.id < idLimit) : parse name.text = some name := by
  have hends : name.text.toList = paddedDigits name.id ++ name.kind.suffix := String.toList_ofList
  rw [parse_of_stem hends, parseId_paddedDigits h]
  rfl

theorem text_ne {name : RunName} (h : name.id < idLimit) {other : String}
    (hother : parse other = none) : name.text ≠ other := by
  intro heq
  have hparse := parse_text h
  rw [heq, hother] at hparse
  cases hparse

/-- The name of a run file starts with a digit, whatever its number is. -/
theorem text_ne_of_head (name : RunName) {other : String}
    (h : other.toList.head?.any Char.isDigit = false) : name.text ≠ other := by
  intro heq
  obtain ⟨c, rest, hdigits⟩ := List.exists_cons_of_length_pos (length_paddedDigits_pos name.id)
  have hdigit : c.isDigit = true :=
    isDigit_of_mem_paddedDigits (n := name.id) (hdigits ▸ List.mem_cons_self)
  have hhead : other.toList.head? = some c := by
    rw [← heq, text, String.toList_ofList, hdigits]
    rfl
  rw [hhead, Option.any_some, hdigit] at h
  cases h

/-- Two run files have two names. -/
theorem text_inj {name other : RunName} (h : name.text = other.text) (hname : name.id < idLimit)
    (hother : other.id < idLimit) : name = other := by
  have := parse_text hname
  rw [h, parse_text hother] at this
  exact (Option.some.inj this).symm

theorem lt_of_parseId {stem : List Char} {id : Nat} (h : parseId stem = some id) :
    id < idLimit := by
  simp [parseId] at h
  obtain ⟨-, hlt, rfl⟩ := h
  exact hlt

theorem id_lt_of_parse {text : String} {name : RunName} (h : parse text = some name) :
    name.id < idLimit := by
  obtain ⟨stem, -, hid⟩ := exists_stem_of_parse h
  exact lt_of_parseId hid

/-- A name of a run file is short, whatever characters stand for. -/
theorem utf8ByteSize_text_le {name : RunName} (h : name.id < idLimit) :
    name.text.utf8ByteSize ≤ Path.nameLimit := by
  have hbytes (l : List Char) : (String.ofList l).utf8ByteSize ≤ 4 * l.length := by
    induction l with
    | nil => decide
    | cons c rest ih =>
      have hc := Char.utf8Size_le_four c
      rw [String.ofList_cons, String.utf8ByteSize_append, String.utf8ByteSize_singleton,
        List.length_cons]
      omega
  have hdigits := length_paddedDigits_le h
  have hsuffix : name.kind.suffix.length ≤ 11 := by cases name.kind <;> decide
  refine Nat.le_trans (hbytes _) ?_
  rw [List.length_append, Path.nameLimit]
  omega

/-- The names of run files are printed characters. -/
theorem nul_notMem_text (name : RunName) : '\x00' ∉ name.text.toList := by
  rw [text, String.toList_ofList, List.mem_append]
  rintro (hdigit | hsuffix)
  · exact absurd (isDigit_of_mem_paddedDigits hdigit) (by decide)
  · revert hsuffix
    cases name.kind <;> decide

end RunName

/-- The path of a folder leaves room for the names of run files. -/
def Path.Roomy (dir : Path) : Prop :=
  ∀ name : RunName, name.id < RunName.idLimit → (name.path dir).check = .ok ()

theorem Path.Roomy.admits {dir : Path} (h : dir.Roomy) {name : RunName}
    (hid : name.id < RunName.idLimit) : dir.Admits name.text where
  moves := by
    have hempty : name.text ≠ "" := RunName.text_ne hid (by decide)
    have hpoint : name.text ≠ "." := RunName.text_ne hid (by decide)
    simp [Path.staysPut, hempty, hpoint]
  inward := RunName.text_ne hid (by decide)
  short := RunName.utf8ByteSize_text_le hid
  check := h name hid

/-- A folder whose path is one short name has room for the names of run files. -/
theorem Path.roomy_singleton {folder : String} (hne : folder ≠ "") (hnul : '\x00' ∉ folder.toList)
    (hshort : folder.utf8ByteSize + nameLimit < textLimit) : Path.Roomy [folder] := by
  intro name hid
  have hchild : name.path [folder] = [folder, name.text] := by simp [RunName.path, child, hne]
  have htext : Path.text [folder, name.text] = folder ++ "/" ++ name.text := rfl
  have hbytes : (folder ++ "/" ++ name.text).utf8ByteSize ≤ textLimit := by
    have := RunName.utf8ByteSize_text_le hid
    rw [String.utf8ByteSize_append, String.utf8ByteSize_append]
    have hslash : "/".utf8ByteSize = 1 := by decide
    omega
  rw [hchild, check, if_neg (by simp [hnul, name.nul_notMem_text]), htext,
    if_neg (Nat.not_lt.mpr hbytes)]

end LayeredStore
