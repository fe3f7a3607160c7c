import Treeprint.Proofs.Scalars

/-!
# Strings and numbers in every spelling

A text that was not written here may spell a string and a number in more ways than the writer does.
A string is a list of pieces between two quotes (`Piece`): a character as it is, an escape of one
character, or an escape of four digits, which stands for sixteen bits and so perhaps for half a
character only.  What the pieces say together is `meaning?`, and there are pieces that say nothing:
half a character without its other half.  A number (`Numeral`) may have a sign, a fraction and an
exponent, and only one that has none of them is a whole number to the reader (`natural?`).

For both there are two things to know: what the reader makes of any spelling, also when it refuses
it (`readChars_pieces`, `natural_numeral`), and that a value that is only passed over is passed over
to its end, whether it could be read or not (`skip_pieces`, `skip_numeral`).
-/

namespace Treeprint.Json

/-! ### What is left of a reader's answer when the fault does not matter -/

section Outcomes

variable {ε α β : Type}

theorem toOption_bind (x : Except ε α) (f : α → Except ε β) :
    (x >>= f).toOption = x.toOption.bind fun a => (f a).toOption := by
  cases x <;> rfl

theorem toOption_map (x : Except ε α) (f : α → β) : (x.map f).toOption = x.toOption.map f := by
  cases x <;> rfl

@[simp] theorem toOption_ok (a : α) : (Except.ok a : Except ε α).toOption = some a := rfl

@[simp] theorem toOption_error (fault : ε) :
    (Except.error fault : Except ε α).toOption = none := rfl

theorem eq_ok_of_toOption {x : Except ε α} {a : α} (h : x.toOption = some a) : x = .ok a := by
  cases x with
  | error fault => cases h
  | ok b => rw [toOption_ok, Option.some.injEq] at h; rw [h]

theorem exists_error_of_toOption {x : Except ε α} (h : x.toOption = none) :
    ∃ fault, x = .error fault := by
  cases x with
  | error fault => exact ⟨fault, rfl⟩
  | ok a => cases h

end Outcomes

/-! ### Strings -/

namespace Quoted

/-- One part of a string between its quotes: a character as it is, or an escape. -/
inductive Piece
  | plain (c : Char) (h : c ≠ '"' ∧ c ≠ '\\' ∧ ¬ c.toNat < 0x20)
  | short (c char : Char) (h : simple? c = some char)
  /-- Sixteen bits as four digits. -/
  | unit (a b c d : Char) (n : Nat) (h : hex? a b c d = some n)

def Piece.text : Piece → List Char
  | plain c _ => [c]
  | short c _ _ => ['\\', c]
  | unit a b c d _ _ => ['\\', 'u', a, b, c, d]

/-- The characters that pieces stand for, unless there is half a character alone. -/
def chars? : List Piece → Option (List Char)
  | [] => some []
  | .plain c _ :: pieces => (chars? pieces).map (c :: ·)
  | .short _ char _ :: pieces => (chars? pieces).map (char :: ·)
  | .unit _ _ _ _ n _ :: pieces =>
    if isLowSurrogate n then none
    else if isHighSurrogate n then
      match pieces with
      | .unit _ _ _ _ low _ :: pieces =>
        if isLowSurrogate low then (chars? pieces).map (paired n low :: ·) else none
      | _ => none
    else (chars? pieces).map (Char.ofNat n :: ·)

/-- The string that pieces spell. -/
def meaning? (pieces : List Piece) : Option String := (chars? pieces).map String.ofList

/-- Pieces between quotes. -/
def spell (pieces : List Piece) : List Char := '"' :: (pieces.flatMap Piece.text ++ ['"'])

theorem spell_append (pieces : List Piece) (rest : List Char) :
    spell pieces ++ rest = '"' :: (pieces.flatMap Piece.text ++ '"' :: rest) := by
  simp [spell]

/-- A character in front of what is read. -/
private def prepend (c : Char) (result : List Char × List Char) : List Char × List Char :=
  (c :: result.1, result.2)

theorem readChars_cons_plain {c : Char} (h : c ≠ '"' ∧ c ≠ '\\' ∧ ¬ c.toNat < 0x20)
    (text : List Char) : readChars (c :: text) = (readChars text).map (prepend c) := by
  obtain ⟨hquote, hbackslash, hc⟩ := h
  rw [readChars, if_neg hc]
  · cases readChars text <;> rfl
  all_goals simp_all

theorem readChars_cons_short {c char : Char} (h : simple? c = some char) (text : List Char) :
    readChars ('\\' :: c :: text) = (readChars text).map (prepend char) := by
  have hu : c ≠ 'u' := by
    rintro rfl
    cases h
  rw [readChars, h]
  · cases readChars text <;> rfl
  all_goals simp [hu]

section Units

variable {a b c d : Char} {n : Nat}

theorem readChars_cons_unit (hn : hex? a b c d = some n) (hlow : isLowSurrogate n = false)
    (hhigh : isHighSurrogate n = false) (text : List Char) :
    readChars ('\\' :: 'u' :: a :: b :: c :: d :: text)
      = (readChars text).map (prepend (Char.ofNat n)) := by
  simp only [readChars, hn, hlow, hhigh]
  cases readChars text <;> rfl

theorem readChars_cons_pair (hn : hex? a b c d = some n) (hhigh : isHighSurrogate n = true)
    (hlow : isLowSurrogate n = false) {e f g h : Char} {low : Nat}
    (hother : hex? e f g h = some low) (text : List Char) :
    readChars ('\\' :: 'u' :: a :: b :: c :: d :: '\\' :: 'u' :: e :: f :: g :: h :: text)
      = if isLowSurrogate low then (readChars text).map (prepend (paired n low))
        else .error .malformed := by
  simp only [readChars, hn, hlow, hhigh, hother]
  cases readChars text <;> simp [Except.map, prepend]

/-- The first half of a character alone. -/
theorem readChars_cons_half (hn : hex? a b c d = some n) (hhigh : isHighSurrogate n = true)
    (hlow : isLowSurrogate n = false) {text : List Char}
    (htext : ∀ rest, text ≠ '\\' :: 'u' :: rest) :
    (readChars ('\\' :: 'u' :: a :: b :: c :: d :: text)).toOption = none := by
  simp only [readChars, hn, hlow, hhigh, Bool.false_eq_true, if_false, if_true]
  split <;> simp_all

end Units

/-- **What is read from pieces is what they stand for**, and they are refused when they stand for
    nothing. -/
theorem readChars_pieces (pieces : List Piece) (rest : List Char) :
    (readChars (pieces.flatMap Piece.text ++ '"' :: rest)).toOption
      = (chars? pieces).map fun chars => (chars, rest) := by
  have hstep {char : Char} {text : List Char} {chars : Option (List Char)}
      (ih : (readChars text).toOption = chars.map fun chars => (chars, rest)) :
      ((readChars text).map (prepend char)).toOption
        = (chars.map (char :: ·)).map fun chars => (chars, rest) := by
    rw [toOption_map, ih, Option.map_map, Option.map_map]
    rfl
  fun_induction chars? pieces with
  | case1 => rfl
  | case2 c h pieces ih =>
    rw [List.flatMap_cons, List.append_assoc]
    exact (congrArg _ (readChars_cons_plain h _)).trans (hstep ih)
  | case3 c char h pieces ih =>
    rw [List.flatMap_cons, List.append_assoc]
    exact (congrArg _ (readChars_cons_short h _)).trans (hstep ih)
  | case4 a b c d n h pieces hlow =>
    rw [List.flatMap_cons, List.append_assoc]
    simp [Piece.text, readChars, h, hlow]
  | case5 a b c d n hn hlow hhigh e f g h low hother pieces hpair ih =>
    rw [Bool.not_eq_true] at hlow
    simp only [List.flatMap_cons, List.append_assoc]
    have hread :=
      readChars_cons_pair hn hhigh hlow hother (pieces.flatMap Piece.text ++ '"' :: rest)
    rw [if_pos hpair] at hread
    exact (congrArg _ hread).trans (hstep ih)
  | case6 a b c d n hn hlow hhigh e f g h low hother pieces hpair =>
    rw [Bool.not_eq_true] at hlow
    simp only [List.flatMap_cons, List.append_assoc]
    have hread :=
      readChars_cons_pair hn hhigh hlow hother (pieces.flatMap Piece.text ++ '"' :: rest)
    rw [if_neg hpair] at hread
    exact congrArg _ hread
  | case7 a b c d n hn pieces hlow hhigh halone =>
    rw [Bool.not_eq_true] at hlow
    rw [List.flatMap_cons, List.append_assoc]
    refine readChars_cons_half hn hhigh hlow ?_
    intro after hafter
    cases pieces with
    | nil => cases hafter
    | cons piece pieces =>
      cases piece with
      | plain c h => exact h.2.1 (List.cons.inj hafter).1
      | short c char h =>
        have hu : c = 'u' := (List.cons.inj (List.cons.inj hafter).2).1
        rw [hu] at h
        cases h
      | unit e f g h low hother => exact halone _ _ _ _ _ _ _ rfl
  | case8 a b c d n hn pieces hlow hhigh ih =>
    rw [Bool.not_eq_true] at hlow hhigh
    rw [List.flatMap_cons, List.append_assoc]
    exact (congrArg _ (readChars_cons_unit hn hlow hhigh _)).trans (hstep ih)

theorem read_pieces (pieces : List Piece) (rest : List Char) :
    (read (pieces.flatMap Piece.text ++ '"' :: rest)).toOption
      = (meaning? pieces).map fun content => (content, rest) := by
  rw [read, toOption_map, readChars_pieces, meaning?, Option.map_map, Option.map_map]
  rfl

/-- Pieces are passed over to the last quote whether they stand for anything or not. -/
theorem skip_pieces (pieces : List Piece) (rest : List Char) :
    skip (pieces.flatMap Piece.text ++ '"' :: rest) = .ok rest := by
  induction pieces with
  | nil => rfl
  | cons piece pieces ih =>
    rw [List.flatMap_cons, List.append_assoc]
    cases piece with
    | plain c h =>
      obtain ⟨hquote, hbackslash, hc⟩ := h
      refine Eq.trans ?_ ih
      rw [Piece.text, List.singleton_append, skip, if_neg hc]
      all_goals simp_all
    | short c char h =>
      have hu : c ≠ 'u' := by
        rintro rfl
        cases h
      refine Eq.trans ?_ ih
      rw [Piece.text, List.cons_append, List.singleton_append, skip, h]
      · rfl
      all_goals simp [hu]
    | unit a b c d n h =>
      refine Eq.trans ?_ ih
      simp [Piece.text, skip, h]

/-- The piece that is written for a character. -/
theorem exists_piece_eq_escape (c : Char) : ∃ piece : Piece, piece.text = escape c ∧
    ∀ pieces, chars? (piece :: pieces) = (chars? pieces).map (c :: ·) := by
  unfold escape
  split
  · exact ⟨.short '"' '"' rfl, rfl, fun _ => rfl⟩
  · exact ⟨.short '\\' '\\' rfl, rfl, fun _ => rfl⟩
  · exact ⟨.short 'b' '\x08' rfl, rfl, fun _ => rfl⟩
  · exact ⟨.short 'f' '\x0c' rfl, rfl, fun _ => rfl⟩
  · exact ⟨.short 'n' '\n' rfl, rfl, fun _ => rfl⟩
  · exact ⟨.short 'r' '\r' rfl, rfl, fun _ => rfl⟩
  · exact ⟨.short 't' '\t' rfl, rfl, fun _ => rfl⟩
  · rename_i hquote hbackslash _ _ _ _ _
    split
    · rename_i hcontrol
      refine ⟨.unit _ _ _ _ _ (hex?_control hcontrol), (controlEscape_eq hcontrol).symm, ?_⟩
      intro pieces
      rw [chars?.eq_def]
      simp [isHighSurrogate_control hcontrol, isLowSurrogate_control hcontrol, Char.ofNat_toNat]
    · rename_i hcontrol
      exact ⟨.plain c ⟨hquote, hbackslash, hcontrol⟩, rfl, fun _ => rfl⟩

/-- What is written for a text is one of its spellings. -/
theorem exists_spell_eq_write (text : String) :
    ∃ pieces, spell pieces = write text ∧ meaning? pieces = some text := by
  have hchars (chars : List Char) : ∃ pieces : List Piece,
      pieces.flatMap Piece.text = chars.flatMap escape ∧ chars? pieces = some chars := by
    induction chars with
    | nil => exact ⟨[], rfl, rfl⟩
    | cons c chars ih =>
      obtain ⟨pieces, htext, hmeans⟩ := ih
      obtain ⟨piece, hpiece, hcons⟩ := exists_piece_eq_escape c
      refine ⟨piece :: pieces, ?_, ?_⟩
      · rw [List.flatMap_cons, List.flatMap_cons, hpiece, htext]
      · rw [hcons, hmeans]
        rfl
  obtain ⟨pieces, htext, hmeans⟩ := hchars text.toList
  refine ⟨pieces, ?_, ?_⟩
  · rw [spell, write, htext, List.cons_append]
  · rw [meaning?, hmeans, Option.map_some, String.ofList_toList]

end Quoted

/-! ### Numbers -/

namespace Number

/-- At least one digit. -/
structure Digits where
  chars : List Char
  nonempty : chars ≠ []
  areDigits : ∀ c ∈ chars, isDigit c = true

structure Exponent where
  isUpper : Bool
  /-- Whether there is a sign, and whether it is a plus. -/
  sign : Option Bool
  digits : Digits

/-- A number as it may be spelled.  There are no zeros in front of the whole part. -/
structure Numeral where
  isNegative : Bool
  whole : Nat
  fraction : Option Digits
  exponent : Option Exponent

def Exponent.text (exponent : Exponent) : List Char :=
  (if exponent.isUpper then 'E' else 'e') ::
    ((match exponent.sign with
      | none => []
      | some true => ['+']
      | some false => ['-']) ++ exponent.digits.chars)

namespace Numeral

def exponentText (n : Numeral) : List Char := n.exponent.elim [] Exponent.text

/-- What is behind the whole part. -/
def tail (n : Numeral) : List Char :=
  (n.fraction.elim [] fun digits => '.' :: digits.chars) ++ n.exponentText

def text (n : Numeral) : List Char :=
  (if n.isNegative then ['-'] else []) ++ (Nat.toDigits 10 n.whole ++ n.tail)

/-- The numeral of a whole number. -/
def ofNat (n : Nat) : Numeral := ⟨false, n, none, none⟩

/-- The whole number that a numeral spells. -/
def natural? (n : Numeral) : Option Nat :=
  if n.isNegative ∨ n.fraction.isSome ∨ n.exponent.isSome then none else some n.whole

end Numeral

/-! #### Passing over a number -/

theorem Digits.exists_cons (digits : Digits) :
    ∃ c tail, digits.chars = c :: tail ∧ isDigit c = true := by
  obtain ⟨c, tail, hcons⟩ := List.exists_cons_of_ne_nil digits.nonempty
  exact ⟨c, tail, hcons, digits.areDigits c (hcons ▸ List.mem_cons_self)⟩

theorem Digits.startsWithDigit_append (digits : Digits) (rest : List Char) :
    startsWithDigit (digits.chars ++ rest) = true := by
  obtain ⟨c, tail, hcons, hc⟩ := digits.exists_cons
  rw [hcons]
  exact hc

theorem skipDigits_append {chars rest : List Char} (hchars : ∀ c ∈ chars, isDigit c = true)
    (hrest : startsWithDigit rest = false) : (skipDigits (chars ++ rest)).2 = rest := by
  have hstop : rest.dropWhile isDigit = rest := by
    cases rest with
    | nil => rfl
    | cons c rest => exact List.dropWhile_cons_of_neg (by simpa [startsWithDigit] using hrest)
  rw [skipDigits, List.dropWhile_append_of_pos hchars, hstop]

theorem skipSome_digits (digits : Digits) {rest : List Char}
    (hrest : startsWithDigit rest = false) : skipSome (digits.chars ++ rest) = .ok rest := by
  rw [skipSome, if_pos (digits.startsWithDigit_append rest),
    skipDigits_append digits.areDigits hrest]

theorem startsWithDigit_exponentText (n : Numeral) {rest : List Char} (hrest : Closes rest) :
    startsWithDigit (n.exponentText ++ rest) = false := by
  rw [Numeral.exponentText]
  cases n.exponent with
  | none => exact startsWithDigit_of_closes hrest
  | some exponent =>
    obtain ⟨isUpper, sign, digits⟩ := exponent
    cases isUpper <;> rfl

theorem startsWithDigit_tail (n : Numeral) {rest : List Char} (hrest : Closes rest) :
    startsWithDigit (n.tail ++ rest) = false := by
  rw [Numeral.tail, List.append_assoc]
  cases n.fraction with
  | none => exact startsWithDigit_exponentText n hrest
  | some digits => rfl

theorem skipExponent_of_closes {rest : List Char} (hrest : Closes rest) :
    skipExponent rest = .ok rest := by
  cases rest with
  | nil => rfl
  | cons c rest => rcases hrest.head with rfl | rfl | rfl | rfl | rfl | rfl | rfl <;> rfl

theorem skipExponent_exponentText (n : Numeral) {rest : List Char} (hrest : Closes rest) :
    skipExponent (n.exponentText ++ rest) = .ok rest := by
  rw [Numeral.exponentText]
  cases n.exponent with
  | none => exact skipExponent_of_closes hrest
  | some exponent =>
    obtain ⟨isUpper, sign, digits⟩ := exponent
    have hskip := skipSome_digits digits (startsWithDigit_of_closes hrest)
    -- without a sign, what follows the mark must not be taken for one
    obtain ⟨c, tail, hcons, hc⟩ := digits.exists_cons
    have hplus : c ≠ '+' := by
      rintro rfl
      exact absurd hc (by decide)
    have hminus : c ≠ '-' := by
      rintro rfl
      exact absurd hc (by decide)
    rw [hcons] at hskip
    cases isUpper <;> rcases sign with _ | _ | _ <;>
      simpa [Exponent.text, skipExponent, hcons, hplus, hminus] using hskip

/-- Pass over what is behind the whole part. -/
def skipTail (text : List Char) : Except Fault (List Char) :=
  match text with
  | '.' :: rest => do skipExponent (← skipSome rest)
  | text => skipExponent text

theorem skipTail_tail (n : Numeral) {rest : List Char} (hrest : Closes rest) :
    skipTail (n.tail ++ rest) = .ok rest := by
  have hexponent := skipExponent_exponentText n hrest
  rw [Numeral.tail, List.append_assoc]
  cases n.fraction with
  | none =>
    rw [Option.elim_none, List.nil_append, skipTail]
    · exact hexponent
    · intro after hafter
      rw [hafter] at hexponent
      cases hexponent
      exact absurd hrest.head (by decide)
  | some digits =>
    have hskip := skipSome_digits digits (startsWithDigit_exponentText n hrest)
    rw [Option.elim_some, List.cons_append, skipTail, hskip]
    exact hexponent

theorem skip_of_toDigits (n : Nat) {after : List Char} (hafter : startsWithDigit after = false) :
    skip (Nat.toDigits 10 n ++ after) = skipTail after ∧
      skip ('-' :: (Nat.toDigits 10 n ++ after)) = skipTail after := by
  rcases Nat.eq_zero_or_pos n with rfl | hpos
  · rw [Nat.toDigits_zero]
    constructor <;> simp [skip, hafter] <;> rfl
  · obtain ⟨c, digits, hcons, hdigits⟩ := exists_toDigits n
    have hc : isDigit c = true := hdigits c List.mem_cons_self
    have hzero : c ≠ '0' := by
      intro hc
      exact head?_toDigits hpos (by rw [hcons, hc]; rfl)
    have hminus : c ≠ '-' := by
      rintro rfl
      exact absurd hc (by decide)
    have hskip : skipSome (c :: (digits ++ after)) = .ok after :=
      skipSome_digits ⟨c :: digits, List.cons_ne_nil c digits, hdigits⟩ hafter
    rw [hcons]
    constructor <;> simp [skip, hminus, hzero, hskip] <;> rfl

/-- **A number is passed over to its end**, whatever its size. -/
theorem skip_numeral (n : Numeral) {rest : List Char} (hrest : Closes rest) :
    skip (n.text ++ rest) = .ok rest := by
  have hskip := skip_of_toDigits n.whole (startsWithDigit_tail n hrest)
  rw [skipTail_tail n hrest] at hskip
  rw [Numeral.text, List.append_assoc, List.append_assoc]
  cases n.isNegative with
  | false => exact hskip.1
  | true => exact hskip.2

/-! #### Reading a number -/

/-- No whole number: a fault, or a number of another kind. -/
def Unnatural (answer : Except Fault (Number × List Char)) : Prop :=
  ∀ value rest, answer ≠ .ok (.natural value, rest)

theorem unnatural_double (isPositive : Bool) (significand : Nat) (power : Int) (rest : List Char) :
    Unnatural ((double isPositive significand power).map fun number => (number, rest)) := by
  intro value after h
  unfold double at h
  split at h <;> cases h

theorem unnatural_error (fault : Fault) : Unnatural (.error fault) := by
  intro value rest h
  cases h

theorem unnatural_hugeExponent (isPositive isZero isUp : Bool) (text : List Char) :
    Unnatural (hugeExponent isPositive isZero isUp text) := by
  unfold hugeExponent
  split
  · exact unnatural_error _
  · intro value rest h
    cases h

theorem unnatural_exponent (isPositive : Bool) (significand : Nat) (start : Int)
    (text : List Char) : Unnatural (exponent isPositive significand start text) := by
  unfold exponent
  split
  split
  · exact unnatural_error _
  · split
    · exact unnatural_error _
    · dsimp only
      split
      · exact unnatural_hugeExponent _ _ _ _
      · exact unnatural_double _ _ _ _

theorem unnatural_afterDigits (isPositive : Bool) (significand : Nat) (power : Int)
    (text : List Char) : Unnatural (afterDigits isPositive significand power text) := by
  unfold afterDigits
  split
  · exact unnatural_exponent _ _ _ _
  · exact unnatural_exponent _ _ _ _
  · exact unnatural_double _ _ _ _

theorem unnatural_fraction (isPositive : Bool) (significand : Nat) (before : Int)
    (text : List Char) : Unnatural (fraction isPositive significand before text) := by
  unfold fraction
  dsimp only
  split
  · exact unnatural_afterDigits _ _ _ _
  · split
    · exact unnatural_error _
    · exact unnatural_afterDigits _ _ _ _

theorem unnatural_afterLong (isPositive : Bool) (value : Nat) (text : List Char) :
    Unnatural (afterLong isPositive value text) := by
  unfold afterLong
  dsimp only
  split
  · exact unnatural_fraction _ _ _ _
  · exact unnatural_afterDigits _ _ _ _

theorem unnatural_afterWhole_false (value : Nat) (text : List Char) :
    Unnatural (afterWhole false value text) := by
  unfold afterWhole
  split
  · exact unnatural_fraction _ _ _ _
  · exact unnatural_exponent _ _ _ _
  · exact unnatural_exponent _ _ _ _
  · rw [if_neg (by decide)]
    split <;> intro value rest h <;> cases h

/-- Of digits that do not fit some are left. -/
theorem startsWithDigit_digits {limit count value : Nat} {text rest : List Char}
    (hdigits : ∀ c ∈ text, isDigit c = true) (hvalue : value ≤ limit)
    (hlimit : limit < Nat.ofDigitChars 10 text value) :
    startsWithDigit (digits limit count value (text ++ rest)).2.2 = true := by
  induction text generalizing count value with
  | nil =>
    rw [Nat.ofDigitChars_nil] at hlimit
    exact absurd hvalue (Nat.not_le_of_lt hlimit)
  | cons c text ih =>
    have hcons : Nat.ofDigitChars 10 (c :: text) value
        = Nat.ofDigitChars 10 text (value * 10 + digitValue c) := by
      rw [Nat.ofDigitChars_cons, Nat.mul_comm]
      rfl
    have hc : isDigit c = true := hdigits c List.mem_cons_self
    rw [hcons] at hlimit
    rw [List.cons_append, digits]
    split
    · rename_i hfits
      exact ih (fun c hc => hdigits c (List.mem_cons_of_mem _ hc)) hfits.2 hlimit
    · exact hc

theorem digitValue_le {c : Char} (hc : isDigit c = true) : digitValue c ≤ 9 := by
  simp only [isDigit, decide_eq_true_eq, Char.le_def, UInt32.le_iff_toNat_le] at hc
  exact Nat.sub_le_iff_le_add.mpr hc.2

/-- A whole part that is too long makes the number a double. -/
theorem unnatural_unsigned_of_long {n : Nat} (hn : largest < n) (isPositive : Bool)
    (rest : List Char) : Unnatural (unsigned isPositive (Nat.toDigits 10 n ++ rest)) := by
  obtain ⟨c, tail, hcons, hdigits⟩ := exists_toDigits n
  have hc : isDigit c = true := hdigits c List.mem_cons_self
  have hzero : c ≠ '0' := by
    intro hc
    exact head?_toDigits (Nat.lt_of_le_of_lt (Nat.zero_le _) hn) (by rw [hcons, hc]; rfl)
  have hleft : startsWithDigit (digits largest 0 (digitValue c) (tail ++ rest)).2.2 = true := by
    apply startsWithDigit_digits (fun d hd => hdigits d (List.mem_cons_of_mem _ hd))
    · exact Nat.le_trans (digitValue_le hc) (by decide)
    · rw [ofDigitChars_tail hcons]
      exact hn
  rw [hcons, List.cons_append, unsigned, if_neg hzero, if_pos hc]
  dsimp only
  rw [if_pos hleft]
  exact unnatural_afterLong _ _ _

theorem read_numeral (n : Numeral) (rest : List Char) : read (n.text ++ rest)
    = unsigned (!n.isNegative) (Nat.toDigits 10 n.whole ++ (n.tail ++ rest)) := by
  rw [Numeral.text, List.append_assoc, List.append_assoc]
  cases n.isNegative with
  | true => rfl
  | false =>
    obtain ⟨c, digits, hcons, hdigits⟩ := exists_toDigits n.whole
    rw [hcons]
    exact read_of_digit (hdigits c List.mem_cons_self) _

/-- A fraction or an exponent makes the number a double. -/
theorem unnatural_afterWhole_tail {n : Numeral} (h : n.fraction.isSome ∨ n.exponent.isSome)
    (isPositive : Bool) (value : Nat) (rest : List Char) :
    Unnatural (afterWhole isPositive value (n.tail ++ rest)) := by
  rw [Numeral.tail, Numeral.exponentText, List.append_assoc]
  cases hfraction : n.fraction with
  | some digits => exact unnatural_fraction _ _ _ _
  | none =>
    obtain ⟨exponent, hexponent⟩ :=
      Option.isSome_iff_exists.mp (h.resolve_left (by simp [hfraction]))
    obtain ⟨isUpper, sign, digits⟩ := exponent
    rw [hexponent]
    cases isUpper <;> exact unnatural_exponent _ _ _ _

theorem unnatural_read_numeral {n : Numeral} {rest : List Char} (hrest : Closes rest)
    (h : ∀ value, n.natural? = some value → largest < value) :
    Unnatural (read (n.text ++ rest)) := by
  rw [read_numeral]
  by_cases hlong : largest < n.whole
  · exact unnatural_unsigned_of_long hlong _ _
  rw [unsigned_toDigits (Nat.le_of_not_lt hlong) _ (startsWithDigit_tail n hrest)]
  by_cases hnegative : n.isNegative = true
  · rw [hnegative]
    exact unnatural_afterWhole_false _ _
  · by_cases hparts : n.fraction.isSome ∨ n.exponent.isSome
    · exact unnatural_afterWhole_tail hparts _ _ _
    · have hnatural : n.natural? = some n.whole := if_neg (not_or.mpr ⟨hnegative, hparts⟩)
      exact absurd (h _ hnatural) hlong

theorem read_numeral_of_natural {n : Numeral} {value : Nat} (h : n.natural? = some value)
    (hvalue : value ≤ largest) {rest : List Char} (hrest : Closes rest) :
    read (n.text ++ rest) = .ok (.natural value, rest) := by
  rw [Numeral.natural?] at h
  split at h
  · cases h
  · rename_i hwhole
    cases h
    obtain ⟨isNegative, whole, fraction, exponent⟩ := n
    simp only [not_or, Bool.not_eq_true, Option.isSome_eq_false_iff, Option.isNone_iff_eq_none]
      at hwhole
    obtain ⟨rfl, rfl, rfl⟩ := hwhole
    have hread := read_toDigits hvalue hrest
    simpa [Numeral.text, Numeral.tail, Numeral.exponentText] using hread

theorem Numeral.exists_cons (n : Numeral) :
    ∃ c tail, n.text = c :: tail ∧ opens c = true ∧ isBlank c = false := by
  rw [Numeral.text]
  cases n.isNegative with
  | true => exact ⟨'-', _, rfl, by decide, by decide⟩
  | false =>
    obtain ⟨c, digits, hcons, hdigits⟩ := exists_toDigits n.whole
    have hc : isDigit c = true := hdigits c List.mem_cons_self
    exact ⟨c, digits ++ n.tail, by simp [hcons], by simp [opens, hc], isBlank_of_isDigit hc⟩

end Number

/-- **A number is read where a whole number is wanted if it spells one that is not too large**, and
    refused otherwise. -/
theorem natural_numeral {limit : Nat} (hlimit : limit ≤ Number.largest) (wanted : String)
    (n : Number.Numeral) {rest : List Char} (hrest : Closes rest) :
    (natural limit wanted (n.text ++ rest)).toOption
      = (n.natural?.filter (· ≤ limit)).map fun value => (value, rest) := by
  obtain ⟨c, tail, hcons, hopens, hblank⟩ := n.exists_cons
  rw [natural, hcons, List.cons_append, atValue_cons _ hblank, if_pos hopens, ← List.cons_append,
    ← hcons]
  by_cases h : ∃ value, n.natural? = some value ∧ value ≤ Number.largest
  · obtain ⟨value, hnatural, hvalue⟩ := h
    rw [Number.read_numeral_of_natural hnatural hvalue hrest, hnatural]
    by_cases hfits : value ≤ limit <;>
      simp [bind, Except.bind, pure, Except.pure, throw, throwThe, MonadExceptOf.throw,
        Option.filter, hfits]
  · have hunnatural := Number.unnatural_read_numeral (n := n) hrest fun value hvalue =>
      Nat.lt_of_not_le fun hle => h ⟨value, hvalue, hle⟩
    have hnone : n.natural?.filter (· ≤ limit) = none := by
      rw [Option.filter_eq_none_iff]
      intro value hvalue hle
      exact h ⟨value, hvalue, Nat.le_trans (of_decide_eq_true hle) hlimit⟩
    rw [hnone]
    cases hread : Number.read (n.text ++ rest) with
    | error fault => rfl
    | ok result =>
      obtain ⟨number, after⟩ := result
      cases number with
      | natural value => exact absurd hread (hunnatural value after)
      | negative value => rfl
      | real bits => rfl

end Treeprint.Json
