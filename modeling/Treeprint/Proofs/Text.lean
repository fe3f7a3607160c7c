import Treeprint.Text.Utf8

/-!
# Text survives its bytes

A text is written as bytes and read back by the decoder of `Utf8`, one byte at a time.  The main
statement is `decode_encode`: **reading what was written gives the text back**, whatever characters
it consists of.  So bytes that are text at all (`Utf8.IsText`) lose nothing when they are shown, and
two such strings of bytes that are shown alike are equal (`decode_injOn`).

The bytes of one character are an opening byte and some tail bytes.  The opening lemmas say in which
stage the decoder is left by an opening byte, and `decodeFrom_tail` says what one tail byte adds.

Of bytes that are no text something is kept: they can be cut at an ASCII byte
(`toList_decode_append_ascii`), and an ASCII character is shown only where its byte is
(`mem_of_mem_decode`).
-/

namespace Treeprint

/-- Parts with a mark between each two: the first part, and each other one behind a mark. -/
theorem intercalate_cons_eq_flatMap {α : Type} (mark : α) (part : List α)
    (parts : List (List α)) :
    List.intercalate [mark] (part :: parts) = part ++ parts.flatMap (mark :: ·) := by
  induction parts generalizing part with
  | nil => simp
  | cons next parts ih =>
    rw [List.intercalate_cons_cons, ih, List.flatMap_cons]
    simp

namespace Utf8

theorem toNat_ofNat_of_lt {n : Nat} (h : n < 256) : (UInt8.ofNat n).toNat = n := by
  rw [UInt8.toNat_ofNat']
  exact Nat.mod_eq_of_lt h

/-! ### Opening bytes -/

theorem opening_ascii {n : Nat} (h : n < 0x80) :
    opening (UInt8.ofNat n) = ([Char.ofNat n], .between) := by
  have hn : (UInt8.ofNat n).toNat = n := toNat_ofNat_of_lt (by omega)
  simp only [opening, UInt8.lt_iff_toNat_lt, hn]
  rw [if_pos (by simpa using h)]

theorem opening_two {n : Nat} (h : 0xC2 ≤ n) (h' : n < 0xE0) :
    opening (UInt8.ofNat n) = ([], .inside (n - 0xC0) 0 0x80 0xBF) := by
  have hn : (UInt8.ofNat n).toNat = n := toNat_ofNat_of_lt (by omega)
  simp only [opening, UInt8.lt_iff_toNat_lt, hn, UInt8.reduceToNat]
  rw [if_neg (by omega), if_neg (by omega), if_pos h']

/-- The bounds on the byte after an opening byte of a three-byte character. -/
def secondOfThree (n : Nat) : UInt8 × UInt8 :=
  if n = 0xE0 then (0xA0, 0xBF) else if n = 0xED then (0x80, 0x9F) else (0x80, 0xBF)

theorem opening_three {n : Nat} (h : 0xE0 ≤ n) (h' : n < 0xF0) :
    opening (UInt8.ofNat n)
      = ([], .inside (n - 0xE0) 1 (secondOfThree n).1 (secondOfThree n).2) := by
  have hn : (UInt8.ofNat n).toNat = n := toNat_ofNat_of_lt (by omega)
  simp only [opening, UInt8.lt_iff_toNat_lt, ← UInt8.toNat_inj, hn, UInt8.reduceToNat]
  rw [if_neg (by omega), if_neg (by omega), if_neg (by omega)]
  by_cases h0 : n = 0xE0
  · subst h0
    rfl
  · rw [if_neg h0]
    by_cases hD : n = 0xED
    · subst hD
      rfl
    · rw [if_neg hD, if_pos h']
      simp only [secondOfThree, if_neg h0, if_neg hD]

/-- The bounds on the byte after an opening byte of a four-byte character. -/
def secondOfFour (n : Nat) : UInt8 × UInt8 :=
  if n = 0xF0 then (0x90, 0xBF) else if n = 0xF4 then (0x80, 0x8F) else (0x80, 0xBF)

theorem opening_four {n : Nat} (h : 0xF0 ≤ n) (h' : n ≤ 0xF4) :
    opening (UInt8.ofNat n)
      = ([], .inside (n - 0xF0) 2 (secondOfFour n).1 (secondOfFour n).2) := by
  have hn : (UInt8.ofNat n).toNat = n := toNat_ofNat_of_lt (by omega)
  simp only [opening, UInt8.lt_iff_toNat_lt, ← UInt8.toNat_inj, hn, UInt8.reduceToNat]
  rw [if_neg (by omega), if_neg (by omega), if_neg (by omega), if_neg (by omega),
    if_neg (by omega), if_neg (by omega)]
  by_cases h0 : n = 0xF0
  · subst h0
    rfl
  · rw [if_neg h0]
    by_cases h4 : n = 0xF4
    · subst h4
      rfl
    · rw [if_pos (by omega)]
      simp only [secondOfFour, if_neg h0, if_neg h4]

/-! ### Tail bytes -/

theorem decodeFrom_tail {value more x : Nat} {low high : UInt8} (hx : x < 0x40)
    (hlow : low.toNat ≤ x + 0x80) (hhigh : x + 0x80 ≤ high.toNat) (rest : Bytes) :
    decodeFrom (.inside value (more + 1) low high) (UInt8.ofNat (x + 0x80) :: rest)
      = decodeFrom (.inside (value * 64 + x) more 0x80 0xBF) rest := by
  have hn : (UInt8.ofNat (x + 0x80)).toNat = x + 0x80 := toNat_ofNat_of_lt (by omega)
  simp only [decodeFrom, step, UInt8.le_iff_toNat_le, hn]
  rw [if_pos ⟨hlow, hhigh⟩]
  simp

theorem decodeFrom_lastTail {value x : Nat} {low high : UInt8} (hx : x < 0x40)
    (hlow : low.toNat ≤ x + 0x80) (hhigh : x + 0x80 ≤ high.toNat) (rest : Bytes) :
    decodeFrom (.inside value 0 low high) (UInt8.ofNat (x + 0x80) :: rest)
      = Char.ofNat (value * 64 + x) :: decodeFrom .between rest := by
  have hn : (UInt8.ofNat (x + 0x80)).toNat = x + 0x80 := toNat_ofNat_of_lt (by omega)
  simp only [decodeFrom, step, UInt8.le_iff_toNat_le, hn]
  rw [if_pos ⟨hlow, hhigh⟩]
  simp

/-! ### Characters and texts -/

/-- The bytes of a character are read as that character, whatever follows them. -/
theorem decodeFrom_encodeChar (c : Char) (rest : Bytes) :
    decodeFrom .between (String.utf8EncodeChar c ++ rest) = c :: decodeFrom .between rest := by
  have hvalid : c.toNat < 0xD800 ∨ 0xDFFF < c.toNat ∧ c.toNat < 0x110000 := c.valid
  have hself : Char.ofNat c.toNat = c := Char.ofNat_toNat c
  generalize hv : c.toNat = v at hvalid hself
  have hval : c.val.toNat = v := hv
  unfold String.utf8EncodeChar
  simp only [hval]
  split
  · -- one byte
    rename_i h1
    have hopen := opening_ascii (n := v) (by omega)
    simp [decodeFrom, step, hopen, hself]
  · split
    · -- two bytes
      rename_i h1 h2
      have hopen := opening_two (n := v / 64 % 32 + 0xC0) (by omega) (by omega)
      simp only [List.cons_append, List.nil_append]
      rw [decodeFrom]
      simp only [step, hopen, List.nil_append]
      rw [decodeFrom_lastTail (by omega) (by simp) (by simp; omega)]
      rw [show (v / 64 % 32 + 0xC0 - 0xC0) * 64 + v % 64 = v by omega, hself]
    · split
      · -- three bytes: the second byte is bounded by the first
        rename_i h1 h2 h3
        have hopen := opening_three (n := v / 4096 % 16 + 0xE0) (by omega) (by omega)
        have hsecond : (secondOfThree (v / 4096 % 16 + 0xE0)).1.toNat ≤ v / 64 % 64 + 0x80 ∧
            v / 64 % 64 + 0x80 ≤ (secondOfThree (v / 4096 % 16 + 0xE0)).2.toNat := by
          unfold secondOfThree
          split
          · simp; omega
          · split
            · simp; omega
            · simp; omega
        simp only [List.cons_append, List.nil_append]
        rw [decodeFrom]
        simp only [step, hopen, List.nil_append]
        rw [decodeFrom_tail (by omega) hsecond.1 hsecond.2,
          decodeFrom_lastTail (by omega) (by simp) (by simp; omega)]
        rw [show ((v / 4096 % 16 + 0xE0 - 0xE0) * 64 + v / 64 % 64) * 64 + v % 64 = v by omega,
          hself]
      · -- four bytes
        rename_i h1 h2 h3
        have hopen := opening_four (n := v / 262144 % 8 + 0xF0) (by omega) (by omega)
        have hsecond : (secondOfFour (v / 262144 % 8 + 0xF0)).1.toNat ≤ v / 4096 % 64 + 0x80 ∧
            v / 4096 % 64 + 0x80 ≤ (secondOfFour (v / 262144 % 8 + 0xF0)).2.toNat := by
          unfold secondOfFour
          split
          · simp; omega
          · split
            · simp; omega
            · simp; omega
        simp only [List.cons_append, List.nil_append]
        rw [decodeFrom]
        simp only [step, hopen, List.nil_append]
        rw [decodeFrom_tail (by omega) hsecond.1 hsecond.2,
          decodeFrom_tail (by omega) (by simp) (by simp; omega),
          decodeFrom_lastTail (by omega) (by simp) (by simp; omega)]
        rw [show (((v / 262144 % 8 + 0xF0 - 0xF0) * 64 + v / 4096 % 64) * 64 + v / 64 % 64) * 64
          + v % 64 = v by omega, hself]

theorem decodeFrom_encode (chars : List Char) :
    decodeFrom .between (chars.flatMap String.utf8EncodeChar) = chars := by
  induction chars with
  | nil => rfl
  | cons c chars ih => rw [List.flatMap_cons, decodeFrom_encodeChar, ih]

/-- **Reading what was written gives the text back.** -/
@[simp] theorem decode_encode (text : String) : decode (encode text) = text := by
  rw [decode, encode, decodeFrom_encode, String.ofList_toList]

/-! ### Bytes that are text -/

/-- Bytes that some text is written as. -/
def IsText (bytes : Bytes) : Prop := ∃ text : String, encode text = bytes

theorem encode_decode {bytes : Bytes} (h : IsText bytes) : encode (decode bytes) = bytes := by
  obtain ⟨text, rfl⟩ := h
  rw [decode_encode]

/-- Bytes that are text and are shown alike are equal. -/
theorem decode_injOn {bytes other : Bytes} (h : IsText bytes) (hother : IsText other)
    (heq : decode bytes = decode other) : bytes = other := by
  rw [← encode_decode h, heq, encode_decode hother]

theorem isText_nil : IsText [] := ⟨"", rfl⟩

theorem isText_append {front back : Bytes} (hfront : IsText front) (hback : IsText back) :
    IsText (front ++ back) := by
  obtain ⟨x, rfl⟩ := hfront
  obtain ⟨y, rfl⟩ := hback
  exact ⟨x ++ y, by simp [encode]⟩

theorem isText_char (c : Char) : IsText (String.utf8EncodeChar c) :=
  ⟨String.ofList [c], by simp [encode]⟩

/-- The bytes of a character are ASCII only when they are one byte, the character itself. -/
theorem mem_encodeChar_of_ascii {c : Char} {b : UInt8} (hb : b ∈ String.utf8EncodeChar c)
    (hascii : b.toNat < 0x80) : String.utf8EncodeChar c = [b] ∧ c.toNat = b.toNat := by
  unfold String.utf8EncodeChar at hb ⊢
  have hval : c.val.toNat = c.toNat := rfl
  simp only [hval] at hb ⊢
  split at hb
  · rename_i h1
    rw [if_pos h1]
    rw [List.mem_singleton] at hb
    subst hb
    exact ⟨rfl, (toNat_ofNat_of_lt (by omega)).symm⟩
  · exfalso
    split at hb
    · simp only [List.mem_cons, List.not_mem_nil, or_false] at hb
      rcases hb with rfl | rfl <;> rw [toNat_ofNat_of_lt (by omega)] at hascii <;> omega
    · have hlt : c.toNat < 0x110000 := by
        have hvalid : c.toNat < 0xD800 ∨ 0xDFFF < c.toNat ∧ c.toNat < 0x110000 := c.valid
        omega
      split at hb
      · simp only [List.mem_cons, List.not_mem_nil, or_false] at hb
        rcases hb with rfl | rfl | rfl <;> rw [toNat_ofNat_of_lt (by omega)] at hascii <;> omega
      · simp only [List.mem_cons, List.not_mem_nil, or_false] at hb
        rcases hb with rfl | rfl | rfl | rfl <;> rw [toNat_ofNat_of_lt (by omega)] at hascii <;>
          omega

/-! ### Cutting bytes at a slash -/

/-- The decoder never waits for an ASCII byte inside a character. -/
def Stage.Waits : Stage → Prop
  | .between => True
  | .inside _ _ low _ => 0x80 ≤ low

theorem waits_opening (b : UInt8) : (opening b).2.Waits := by
  unfold opening
  repeat' split
  all_goals simp [Stage.Waits]

theorem waits_step {stage : Stage} (b : UInt8) : (step stage b).2.Waits := by
  cases stage with
  | between => exact waits_opening b
  | inside value more low high =>
    rw [step]
    split
    · cases more with
      | zero => trivial
      | succ more => simp [Stage.Waits]
    · exact waits_opening b

/-- An ASCII byte ends what is before it and is a character of its own. -/
theorem decodeFrom_append_ascii {b : UInt8} (hb : b < 0x80) {stage : Stage} (h : stage.Waits)
    (bytes rest : Bytes) :
    decodeFrom stage (bytes ++ b :: rest)
      = decodeFrom stage bytes ++ Char.ofNat b.toNat :: decodeFrom .between rest := by
  induction bytes generalizing stage with
  | nil =>
    have hopen : opening b = ([Char.ofNat b.toNat], .between) := by rw [opening, if_pos hb]
    cases stage with
    | between => simp [decodeFrom, step, hopen, finish]
    | inside value more low high =>
      have hlow : ¬ (low ≤ b ∧ b ≤ high) := by
        rintro ⟨hle, -⟩
        have hlow : (0x80 : UInt8) ≤ low := h
        exact absurd (UInt8.lt_of_le_of_lt (UInt8.le_trans hlow hle) hb) (UInt8.lt_irrefl _)
      simp [decodeFrom, step, hopen, finish, if_neg hlow]
  | cons c bytes ih =>
    rw [List.cons_append, decodeFrom, decodeFrom, ih (waits_step c), List.append_assoc]

/-- Bytes with an ASCII byte between them are shown one after the other. -/
theorem toList_decode_append_ascii {b : UInt8} (hb : b < 0x80) (bytes rest : Bytes) :
    (decode (bytes ++ b :: rest)).toList
      = (decode bytes).toList ++ Char.ofNat b.toNat :: (decode rest).toList := by
  have hwaits : Stage.between.Waits := trivial
  simp only [decode, String.toList_ofList]
  exact decodeFrom_append_ascii hb hwaits bytes rest

/-! ### Characters that come from one byte -/

/-- The decoder completes no ASCII character inside a character of more bytes: what it holds before
    the last byte is at least `2`, and so the last byte brings it to at least `0x80`. -/
def Stage.Beyond : Stage → Prop
  | .between => True
  | .inside value more low _ =>
    0x80 ≤ low.toNat ∧ 2 ≤ value * 64 + (low.toNat - 0x80) ∧ (more = 0 → 2 ≤ value)

theorem beyond_opening (b : UInt8) : (opening b).2.Beyond := by
  unfold opening
  simp only [UInt8.lt_iff_toNat_lt, ← UInt8.toNat_inj, UInt8.reduceToNat]
  repeat' split
  all_goals simp only [Stage.Beyond, UInt8.reduceToNat]
  all_goals omega

theorem beyond_step {stage : Stage} (h : stage.Beyond) (b : UInt8) : (step stage b).2.Beyond := by
  cases stage with
  | between => exact beyond_opening b
  | inside value more low high =>
    obtain ⟨hlow, htwo, -⟩ := h
    rw [step]
    split
    · rename_i hb
      have hlowb := UInt8.le_iff_toNat_le.1 hb.1
      cases more with
      | zero => trivial
      | succ more => simp [Stage.Beyond]; omega
    · exact beyond_opening b

/-- A number that stands for an ASCII character other than the zero byte stands for no other. -/
theorem ofNat_inj_of_ascii {n m : Nat} (hpos : 0 < n) (hn : n < 0x80)
    (h : Char.ofNat n = Char.ofNat m) : n = m := by
  have hvalid : n.isValidChar := .inl (by omega)
  have hnat : (Char.ofNat n).toNat = n := by
    rw [Char.ofNat, dif_pos hvalid]
    rfl
  by_cases hother : m.isValidChar
  · rw [h, Char.ofNat, dif_pos hother] at hnat
    exact hnat.symm
  · -- what stands for no character is shown as the zero byte
    rw [h, Char.ofNat, dif_neg hother] at hnat
    have hzero : (0 : Nat) = n := hnat
    omega

/-- An ASCII character is shown only where its byte is. -/
theorem mem_of_mem_decodeFrom {b : UInt8} (hpos : 0 < b.toNat) (hb : b.toNat < 0x80) {stage : Stage}
    (hstage : stage.Beyond) {bytes : Bytes}
    (h : Char.ofNat b.toNat ∈ decodeFrom stage bytes) : b ∈ bytes := by
  have hreplacement : Char.ofNat b.toNat ≠ replacement := by
    intro heq
    have hbyte : b.toNat = 0xFFFD := ofNat_inj_of_ascii hpos hb heq
    omega
  have hopening (c : UInt8) (hc : Char.ofNat b.toNat ∈ (opening c).1) : b = c := by
    unfold opening at hc
    split at hc
    · rw [List.mem_singleton] at hc
      exact UInt8.toNat_inj.1 (ofNat_inj_of_ascii hpos hb hc)
    · repeat' split at hc
      all_goals simp [hreplacement] at hc
  induction bytes generalizing stage with
  | nil =>
    cases stage with
    | between => simp [decodeFrom, finish] at h
    | inside => simp [decodeFrom, finish, hreplacement] at h
  | cons c bytes ih =>
    rw [decodeFrom, List.mem_append] at h
    rcases h with h | h
    · cases stage with
      | between => exact List.mem_cons.2 (.inl (hopening c h))
      | inside value more low high =>
        obtain ⟨hlow, -, htwo⟩ := hstage
        rw [step] at h
        split at h
        · cases more with
          | zero =>
            rw [List.mem_singleton] at h
            have hbyte := ofNat_inj_of_ascii hpos hb h
            have hvalue := htwo rfl
            omega
          | succ more => simp at h
        · rcases List.mem_cons.1 h with h | h
          · exact absurd h hreplacement
          · exact List.mem_cons.2 (.inl (hopening c h))
    · exact List.mem_cons_of_mem c (ih (beyond_step hstage c) h)

theorem opening_ne_nil {b : UInt8} (h : (opening b).2 = .between) : (opening b).1 ≠ [] := by
  unfold opening at h ⊢
  repeat' split
  all_goals simp_all

/-- A character is left behind when the decoder comes to stand between two. -/
theorem step_ne_nil {stage : Stage} {b : UInt8} (h : (step stage b).2 = .between) :
    (step stage b).1 ≠ [] := by
  cases stage with
  | between => exact opening_ne_nil h
  | inside value more low high =>
    rw [step] at h ⊢
    split
    · rename_i hb
      rw [if_pos hb] at h
      cases more with
      | zero => simp
      | succ more => cases h
    · simp
/-- Bytes that are there show something. -/
theorem decodeFrom_ne_nil {stage : Stage} {bytes : Bytes} (h : stage ≠ .between ∨ bytes ≠ []) :
    decodeFrom stage bytes ≠ [] := by
  induction bytes generalizing stage with
  | nil =>
    cases stage with
    | between => simp at h
    | inside => simp [decodeFrom, finish]
  | cons b bytes ih =>
    rw [decodeFrom]
    by_cases hstage : (step stage b).2 = .between
    · exact List.append_ne_nil_of_left_ne_nil (step_ne_nil hstage) _
    · exact List.append_ne_nil_of_right_ne_nil _ (ih (.inl hstage))

theorem mem_of_mem_decode {b : UInt8} (hpos : 0 < b.toNat) (hb : b.toNat < 0x80) {bytes : Bytes}
    (h : Char.ofNat b.toNat ∈ (decode bytes).toList) : b ∈ bytes := by
  have hbetween : Stage.between.Beyond := trivial
  rw [decode, String.toList_ofList] at h
  exact mem_of_mem_decodeFrom hpos hb hbetween h

theorem toList_decode_ne_nil {bytes : Bytes} (h : bytes ≠ []) : (decode bytes).toList ≠ [] := by
  rw [decode, String.toList_ofList]
  exact decodeFrom_ne_nil (.inr h)

end Utf8

end Treeprint
