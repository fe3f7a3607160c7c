import Treeprint.Json.Shape
import Treeprint.Persistence.Writing

/-!
# Written values are read back

`Spells read text value` says that a reader takes the value off the front of a text, whatever
follows.  What follows a value is not arbitrary, though: a digit behind a number would belong to it.
So the rest is empty or begins with a blank or with one of the three marks that can stand there, and
in turn a value never begins with one of the marks that end a sequence.

Here are the values that are not made of others: words, whole numbers and strings.  In a string
each character is written as itself or as an escape, and the reader gives it back character by
character (`Quoted.readChars_escape`); no text needs surrogates.
-/

namespace Treeprint.Json

/-- What stands behind a value: nothing, a blank, a comma or a bracket that closes. -/
def Closes (rest : List Char) : Prop :=
  ∀ c ∈ rest.head?, isBlank c = true ∨ c = ',' ∨ c = ']' ∨ c = '\x7d'

theorem closes_nil : Closes [] := by
  intro c hc
  cases hc

theorem closes_cons {c : Char} (hc : c = ',' ∨ c = ']' ∨ c = '\x7d') (rest : List Char) :
    Closes (c :: rest) := by
  intro other hother
  cases hother
  exact .inr hc

/-- The characters that may stand behind a value, one by one. -/
theorem Closes.head {c : Char} {rest : List Char} (h : Closes (c :: rest)) :
    c = ' ' ∨ c = '\n' ∨ c = '\t' ∨ c = '\r' ∨ c = ',' ∨ c = ']' ∨ c = '\x7d' := by
  have hc := h c rfl
  rw [isBlank, decide_eq_true_eq] at hc
  simpa only [or_assoc] using hc

/-- What a value may begin with. -/
def Opens (c : Char) : Prop := isBlank c = false ∧ c ≠ ',' ∧ c ≠ ']'

/-- A text that a reader takes a value off from, whatever stands behind it. -/
structure Spells {α : Type} (read : Reader α) (text : List Char) (value : α) : Prop where
  opens : ∃ c rest, text = c :: rest ∧ Opens c
  reads : ∀ rest, Closes rest → read (text ++ rest) = .ok (value, rest)

namespace Spells

variable {α β : Type} {read : Reader α} {text : List Char} {value : α}

theorem map (h : Spells read text value) (f : α → β) :
    Spells (fun text => (read text).map fun result => (f result.1, result.2)) text (f value) where
  opens := h.opens
  reads rest hrest := by
    rw [h.reads rest hrest]
    rfl

theorem readAll (h : Spells read text value) : readAll read (String.ofList text) = .ok value := by
  have hread := h.reads [] closes_nil
  rw [List.append_nil] at hread
  rw [Json.readAll, String.toList_ofList, hread]
  rfl

end Spells

@[simp] theorem skipBlanks_cons {c : Char} (hc : isBlank c = false) (rest : List Char) :
    skipBlanks (c :: rest) = c :: rest := by
  simp [skipBlanks, hc]

theorem atValue_cons {α : Type} (read : Char → List Char → Except Fault α) {c : Char}
    (hc : isBlank c = false) (rest : List Char) : atValue read (c :: rest) = read c rest := by
  rw [atValue, skipBlanks_cons hc]

/-! ### Words -/

theorem spells_boolean (value : Bool) :
    Spells boolean (Persistence.writeBoolean value) value := by
  cases value
  · exact ⟨⟨'f', _, rfl, by decide, by decide, by decide⟩, fun _ _ => rfl⟩
  · exact ⟨⟨'t', _, rfl, by decide, by decide, by decide⟩, fun _ _ => rfl⟩

/-! ### Whole numbers -/

namespace Number

theorem isDigit_eq (c : Char) : isDigit c = c.isDigit := by
  simp [isDigit, Char.isDigit, Char.le_def]

theorem isBlank_of_isDigit {c : Char} (hc : isDigit c = true) : isBlank c = false := by
  rw [Bool.eq_false_iff]
  intro hblank
  simp only [isBlank, decide_eq_true_eq] at hblank
  rcases hblank with rfl | rfl | rfl | rfl <;> exact absurd hc (by decide)

theorem startsWithDigit_of_closes {rest : List Char} (h : Closes rest) :
    startsWithDigit rest = false := by
  cases rest with
  | nil => rfl
  | cons c rest => rcases h.head with rfl | rfl | rfl | rfl | rfl | rfl | rfl <;> rfl

theorem afterWhole_of_closes {rest : List Char} (h : Closes rest) (value : Nat) :
    afterWhole true value rest = .ok (.natural value, rest) := by
  cases rest with
  | nil => rfl
  | cons c rest => rcases h.head with rfl | rfl | rfl | rfl | rfl | rfl | rfl <;> rfl

theorem le_ofDigitChars (text : List Char) (value : Nat) :
    value ≤ Nat.ofDigitChars 10 text value := by
  rw [Nat.ofDigitChars_eq_ofDigitChars_zero]
  have hscaled : value ≤ 10 ^ text.length * value :=
    Nat.le_mul_of_pos_left _ (Nat.pow_pos (by decide))
  exact Nat.le_trans hscaled (Nat.le_add_right _ _)

/-- Digits are read to their end when the number that they make stays within the limit. -/
theorem digits_append {limit count value : Nat} {text rest : List Char}
    (hdigits : ∀ c ∈ text, isDigit c) (hlimit : Nat.ofDigitChars 10 text value ≤ limit)
    (hrest : startsWithDigit rest = false) :
    digits limit count value (text ++ rest)
      = (count + text.length, Nat.ofDigitChars 10 text value, rest) := by
  induction text generalizing count value with
  | nil =>
    rw [Nat.ofDigitChars_nil]
    cases rest with
    | nil => rfl
    | cons c rest =>
      have hc : isDigit c = false := hrest
      simp [digits, hc]
  | cons c text ih =>
    have hcons : Nat.ofDigitChars 10 (c :: text) value
        = Nat.ofDigitChars 10 text (value * 10 + digitValue c) := by
      rw [Nat.ofDigitChars_cons, Nat.mul_comm]
      rfl
    rw [hcons] at hlimit ⊢
    have hfits : isDigit c = true ∧ value * 10 + digitValue c ≤ limit :=
      ⟨hdigits c List.mem_cons_self, Nat.le_trans (le_ofDigitChars text _) hlimit⟩
    rw [List.cons_append, digits, if_pos hfits,
      ih (fun c hc => hdigits c (List.mem_cons_of_mem _ hc)) hlimit, List.length_cons]
    congr 1
    omega

/-- A number is written without a zero in front. -/
theorem head?_toDigits {n : Nat} (h : 0 < n) : (Nat.toDigits 10 n).head? ≠ some '0' := by
  induction n using Nat.base_induction 10 (by decide) with
  | single n hn =>
    have hdigit : ∀ n < 10, 0 < n → n.digitChar ≠ '0' := by decide
    rw [Nat.toDigits_of_lt_base hn]
    simpa using hdigit n hn h
  | digit m k hk hm ih =>
    obtain ⟨c, rest, hcons⟩ := List.exists_cons_of_ne_nil (Nat.toDigits_ne_nil (n := m) (b := 10))
    rw [← Nat.toDigits_append_toDigits (by decide) hm hk, hcons, List.cons_append]
    rw [hcons] at ih
    exact ih hm

/-- The digits behind the first make up the number, on top of the first. -/
theorem ofDigitChars_tail {n : Nat} {c : Char} {tail : List Char}
    (hcons : Nat.toDigits 10 n = c :: tail) : Nat.ofDigitChars 10 tail (digitValue c) = n := by
  have hall := Nat.ofDigitChars_ten_toDigits (n := n)
  rw [hcons, Nat.ofDigitChars_cons, Nat.mul_zero, Nat.zero_add] at hall
  exact hall

theorem exists_toDigits (n : Nat) : ∃ c rest, Nat.toDigits 10 n = c :: rest ∧
    (∀ d ∈ c :: rest, isDigit d) := by
  obtain ⟨c, rest, hcons⟩ := List.exists_cons_of_ne_nil (Nat.toDigits_ne_nil (n := n) (b := 10))
  refine ⟨c, rest, hcons, ?_⟩
  intro d hd
  rw [isDigit_eq]
  exact Nat.isDigit_of_mem_toDigits (by decide) (by decide) (hcons ▸ hd)

/-- The digits of a number that fits are read to their end. -/
theorem unsigned_toDigits {n : Nat} (hn : n ≤ largest) (isPositive : Bool) {rest : List Char}
    (hrest : startsWithDigit rest = false) :
    unsigned isPositive (Nat.toDigits 10 n ++ rest) = afterWhole isPositive n rest := by
  rcases Nat.eq_zero_or_pos n with rfl | hpos
  · rw [Nat.toDigits_zero]
    simp [unsigned, hrest]
  · obtain ⟨c, tail, hcons, hdigits⟩ := exists_toDigits n
    have hc : isDigit c = true := hdigits c List.mem_cons_self
    have hzero : c ≠ '0' := by
      intro hc
      exact head?_toDigits hpos (by rw [hcons, hc]; rfl)
    have hvalue := ofDigitChars_tail hcons
    have hread : digits largest 0 (digitValue c) (tail ++ rest) = (0 + tail.length, n, rest) := by
      rw [digits_append (fun d hd => hdigits d (List.mem_cons_of_mem _ hd)) (hvalue ▸ hn) hrest,
        hvalue]
    rw [hcons, List.cons_append]
    simp [unsigned, hzero, hc, hread, hrest]

theorem read_of_digit {c : Char} (hc : isDigit c = true) (rest : List Char) :
    read (c :: rest) = unsigned true (c :: rest) := by
  have hminus : c ≠ '-' := by
    rintro rfl
    exact absurd hc (by decide)
  simp [read, hminus]

/-- **A whole number of at most sixty-four bits is read back.** -/
theorem read_toDigits {n : Nat} (hn : n ≤ largest) {rest : List Char} (hrest : Closes rest) :
    read (Nat.toDigits 10 n ++ rest) = .ok (.natural n, rest) := by
  obtain ⟨c, tail, hcons, hdigits⟩ := exists_toDigits n
  have hunsigned := unsigned_toDigits hn true (startsWithDigit_of_closes hrest)
  rw [hcons, List.cons_append] at hunsigned ⊢
  rw [read_of_digit (hdigits c List.mem_cons_self), hunsigned, afterWhole_of_closes hrest]

end Number

theorem spells_natural {n limit : Nat} (hn : n ≤ limit) (hlimit : limit ≤ Number.largest)
    (wanted : String) : Spells (natural limit wanted) (Persistence.writeNatural n) n := by
  obtain ⟨c, tail, hcons, hdigits⟩ := Number.exists_toDigits n
  have hc : Number.isDigit c = true := hdigits c List.mem_cons_self
  have hblank := Number.isBlank_of_isDigit hc
  refine ⟨⟨c, tail, hcons, hblank, ?_, ?_⟩, ?_⟩
  · rintro rfl
    exact absurd hc (by decide)
  · rintro rfl
    exact absurd hc (by decide)
  · intro rest hrest
    have hopens : Number.opens c = true := by simp [Number.opens, hc]
    have hread := Number.read_toDigits (Nat.le_trans hn hlimit) hrest
    rw [Persistence.writeNatural, natural]
    rw [hcons, List.cons_append] at hread ⊢
    rw [atValue_cons _ hblank, if_pos hopens, hread]
    simp [bind, Except.bind, hn, pure, Except.pure]

theorem spells_word64 (value : UInt64) :
    Spells word64 (Persistence.writeNatural value.toNat) value := by
  have hvalue : value.toNat ≤ Number.largest := Nat.le_of_lt_succ value.toNat_lt
  have h := (spells_natural hvalue (Nat.le_refl _) "u64").map UInt64.ofNat
  rwa [UInt64.ofNat_toNat] at h

theorem spells_byte (value : UInt8) :
    Spells byte (Persistence.writeNatural value.toNat) value := by
  have hvalue : value.toNat ≤ 255 := Nat.le_of_lt_succ value.toNat_lt
  have h := (spells_natural hvalue (by decide) "u8").map UInt8.ofNat
  rwa [UInt8.ofNat_toNat] at h

/-! ### Strings -/

namespace Quoted

/-- The four digits of a control give it back. -/
theorem hex?_control {n : Nat} (hn : n < 0x20) :
    hex? '0' '0' (Hex.digit (n / 16)) (Hex.digit (n % 16)) = some n := by
  revert n
  decide

theorem isHighSurrogate_control {n : Nat} (hn : n < 0x20) : isHighSurrogate n = false := by
  revert n
  decide

theorem isLowSurrogate_control {n : Nat} (hn : n < 0x20) : isLowSurrogate n = false := by
  revert n
  decide

theorem controlEscape_eq {c : Char} (hc : c.toNat < 0x20) : controlEscape c
    = ['\\', 'u', '0', '0', Hex.digit (c.toNat / 16), Hex.digit (c.toNat % 16)] := by
  have hbyte : (UInt8.ofNat c.toNat).toNat = c.toNat := by
    rw [UInt8.toNat_ofNat']
    omega
  rw [controlEscape, Hex.encodeByte, hbyte]

theorem readChars_simple {c char : Char} (hc : simple? c = some char)
    {chars text rest : List Char} (h : readChars text = .ok (chars, rest)) :
    readChars ('\\' :: c :: text) = .ok (char :: chars, rest) := by
  have hu : c ≠ 'u' := by
    rintro rfl
    cases hc
  simp [readChars, hu, hc, h]

theorem readChars_control {c : Char} (hc : c.toNat < 0x20) {chars text rest : List Char}
    (h : readChars text = .ok (chars, rest)) :
    readChars (controlEscape c ++ text) = .ok (c :: chars, rest) := by
  simp [controlEscape_eq hc, readChars, hex?_control hc, isHighSurrogate_control hc,
    isLowSurrogate_control hc, h, Char.ofNat_toNat]

theorem readChars_plain {c : Char} (hquote : c ≠ '"') (hbackslash : c ≠ '\\')
    (hc : ¬ c.toNat < 0x20) {chars text rest : List Char} (h : readChars text = .ok (chars, rest)) :
    readChars (c :: text) = .ok (c :: chars, rest) := by
  simp [readChars, hbackslash, hc, h]

/-- **A character is read back as it was, escaped or not.** -/
theorem readChars_escape {chars text rest : List Char} (h : readChars text = .ok (chars, rest))
    (c : Char) : readChars (escape c ++ text) = .ok (c :: chars, rest) := by
  unfold escape
  split
  · exact readChars_simple rfl h
  · exact readChars_simple rfl h
  · exact readChars_simple rfl h
  · exact readChars_simple rfl h
  · exact readChars_simple rfl h
  · exact readChars_simple rfl h
  · exact readChars_simple rfl h
  · rename_i hquote hbackslash _ _ _ _ _
    split
    · rename_i hcontrol
      exact readChars_control hcontrol h
    · rename_i hcontrol
      exact readChars_plain hquote hbackslash hcontrol h

theorem readChars_escaped (chars rest : List Char) :
    readChars (chars.flatMap escape ++ '"' :: rest) = .ok (chars, rest) := by
  induction chars with
  | nil => rfl
  | cons c chars ih =>
    rw [List.flatMap_cons, List.append_assoc]
    exact readChars_escape ih c

theorem write_append (text : String) (rest : List Char) :
    write text ++ rest = '"' :: (text.toList.flatMap escape ++ '"' :: rest) := by
  simp [write]

theorem read_escaped (text : String) (rest : List Char) :
    read (text.toList.flatMap escape ++ '"' :: rest) = .ok (text, rest) := by
  rw [read, readChars_escaped]
  simp [Except.map]

end Quoted

theorem string_write (wanted text : String) (rest : List Char) :
    string wanted (Quoted.write text ++ rest) = .ok (text, rest) := by
  rw [Quoted.write_append, string, atValue_cons _ (by decide), if_pos rfl, Quoted.read_escaped]

theorem opens_write (text : String) :
    ∃ c rest, Quoted.write text = c :: rest ∧ Opens c :=
  ⟨'"', _, rfl, by decide, by decide, by decide⟩

theorem spells_string (wanted text : String) :
    Spells (string wanted) (Quoted.write text) text where
  opens := opens_write text
  reads rest _ := string_write wanted text rest

end Treeprint.Json
