/-
  StackVM.Proofs.Assembly.Literals — how an unsigned number may be spelled.

  There are two spellings: decimal digits, or a mark and hexadecimal digits, without a sign. That is `Spelling`, told
  without the reader of literals. The reader looks at no more than the mark, however, and leaves what follows to a
  reader of hexadecimal numbers with ways of its own, who also takes a sign there, and after it a second mark. What
  comes out is `Accepted`.

  - `unsigned?_iff`: the reader of literals accepts this and nothing else.
  - `accepted_of_spelling`, `spelling_of_accepted`: all spellings are accepted, and nothing else is unless a sign or a
    second mark stands right behind the mark.
  - `literals_read`: what operands, jump targets and entries are made of.
  - `literals_read_signed`: a literal with a sign.
-/

import StackVM.Proofs.Assembly.Dialect
import StackVM.Proofs.Assembly.Numerals

namespace StackVM

namespace Assembly

open Text (byte ofString)
open Literal

/-! ## Spellings -/

/-- The mark of a hexadecimal number. -/
def HexMark (mark : Text) : Prop := mark = ofString "0x" ∨ mark = ofString "0X"

/-- How a number may be spelled. -/
inductive Spelling : Text → Nat → Prop
  | decimal {t : Text} {n : Nat} : Numeral 10 t n → Spelling t n
  | hexadecimal {mark t : Text} {n : Nat} : HexMark mark → Numeral 16 t n → Spelling (mark ++ t) n

/-- A sign or none, and whether it is a minus. -/
inductive Sign : Text → Bool → Prop
  | none : Sign [] false
  | plus : Sign (ofString "+") false
  | minus : Sign (ofString "-") true

/-- What is accepted for a word. -/
inductive Accepted : Text → UInt64 → Prop
  | decimal {t : Text} {n : Nat} : Numeral 10 t n → n < UInt64.size → Accepted t (.ofNat n)
  | hexadecimal {mark sign again t : Text} {n : Nat} {negative : Bool} : HexMark mark → Sign sign negative →
      again = [] ∨ HexMark again → Numeral 16 t n → n < UInt64.size →
      Accepted (mark ++ (sign ++ (again ++ t))) (if negative then 0 - .ofNat n else .ofNat n)

/-- A sign or a second mark stands right behind the mark. -/
def Disguised (t : Text) : Prop :=
  ∃ mark more rest, HexMark mark ∧ (more = ofString "+" ∨ more = ofString "-" ∨ HexMark more) ∧
    t = mark ++ (more ++ rest)

/-- What a line can be cut into, zero bytes apart. -/
def Token (t : Text) : Prop := ∀ b ∈ t, Text.isBlank b = false ∧ b ≠ 0

/-! ## Bytes -/

theorem forall_byte {P : UInt8 → Prop} (h : ∀ n < 256, P (UInt8.ofNat n)) (b : UInt8) : P b := by
  have hb := h b.toNat b.toNat_lt
  rwa [UInt8.ofNat_toNat] at hb

/-- What can be checked byte by byte. -/
theorem forall_mem_of_all {P : UInt8 → Prop} [DecidablePred P] {t : Text} (h : t.all (fun b => decide (P b)) = true) :
    ∀ b ∈ t, P b := by
  simpa using h

theorem lower_eq_x (b : UInt8) : Text.lower b = byte 'x' ↔ b = byte 'x' ∨ b = byte 'X' :=
  forall_byte (P := fun b => Text.lower b = byte 'x' ↔ b = byte 'x' ∨ b = byte 'X') (by decide +kernel) b

theorem isDigit_eq (b : UInt8) : Text.isDigit b = isDigitOf 10 b :=
  forall_byte (P := fun b => Text.isDigit b = isDigitOf 10 b) (by decide +kernel) b

/-- A hexadecimal digit is nothing else that the reader looks for. -/
theorem digit_apart {b : UInt8} (hb : isDigitOf 16 b = true) :
    b ≠ 0 ∧ b ≠ byte '+' ∧ b ≠ byte '-' ∧ Text.lower b ≠ byte 'x' :=
  forall_byte (P := fun b => isDigitOf 16 b = true → b ≠ 0 ∧ b ≠ byte '+' ∧ b ≠ byte '-' ∧ Text.lower b ≠ byte 'x')
    (by decide +kernel) b hb

theorem isDigitOf_mono {base base' : Nat} (hle : base ≤ base') {b : UInt8} (hb : isDigitOf base b = true) :
    isDigitOf base' b = true := by
  obtain ⟨d, hd, hlt⟩ := isDigitOf_iff.mp hb
  exact isDigitOf_iff.mpr ⟨d, hd, Nat.lt_of_lt_of_le hlt hle⟩

/-! ## Marks and signs -/

variable {base n : Nat} {t : Text} {v : UInt64}

theorem hexMark_pair {x : UInt8} (hx : Text.lower x = byte 'x') : HexMark [byte '0', x] := by
  rcases (lower_eq_x x).mp hx with rfl | rfl
  · exact .inl rfl
  · exact .inr rfl

theorem hexMark_cases {mark : Text} (h : HexMark mark) : ∃ x, Text.lower x = byte 'x' ∧ mark = [byte '0', x] := by
  rcases h with rfl | rfl
  · exact ⟨byte 'x', rfl, rfl⟩
  · exact ⟨byte 'X', rfl, rfl⟩

theorem hasHexMark_iff : hasHexMark t = true ↔ ∃ mark rest, HexMark mark ∧ rest ≠ [] ∧ t = mark ++ rest := by
  constructor
  · intro h
    unfold hasHexMark at h
    split at h
    next z x c rest =>
      rw [Bool.and_eq_true, beq_iff_eq, beq_iff_eq] at h
      obtain ⟨rfl, hx⟩ := h
      exact ⟨_, c :: rest, hexMark_pair hx, by simp, rfl⟩
    next => cases h
  · rintro ⟨mark, rest, hmark, hne, rfl⟩
    obtain ⟨x, hx, rfl⟩ := hexMark_cases hmark
    cases rest with
    | nil => exact absurd rfl hne
    | cons c rest => simp [hasHexMark, hx]

/-- No row of digits has a mark. -/
theorem hasHexMark_of_digits (hall : ∀ b ∈ t, isDigitOf 16 b = true) : hasHexMark t = false := by
  rw [Bool.eq_false_iff]
  intro h
  obtain ⟨mark, rest, hmark, -, rfl⟩ := hasHexMark_iff.mp h
  obtain ⟨x, hx, rfl⟩ := hexMark_cases hmark
  exact (digit_apart (hall x (by simp))).2.2.2 hx

theorem dropHexMark_split (t : Text) : ∃ again, (again = [] ∨ HexMark again) ∧ t = again ++ dropHexMark t := by
  unfold dropHexMark
  split
  next h =>
    obtain ⟨mark, rest, hmark, -, rfl⟩ := hasHexMark_iff.mp (Bool.and_eq_true_iff.mp h).1
    obtain ⟨x, -, rfl⟩ := hexMark_cases hmark
    exact ⟨_, .inr hmark, rfl⟩
  next => exact ⟨[], .inl rfl, rfl⟩

theorem dropHexMark_append {again : Text} (hagain : again = [] ∨ HexMark again) (h : Numeral 16 t n) :
    dropHexMark (again ++ t) = t := by
  obtain ⟨b, rest, rfl, hb, -⟩ := h.exists_cons
  unfold dropHexMark
  rcases hagain with rfl | hagain
  · rw [List.nil_append, hasHexMark_of_digits h.read.2.1]
    rfl
  · have hmark := hasHexMark_iff.mpr ⟨again, b :: rest, hagain, by simp, rfl⟩
    obtain ⟨x, -, rfl⟩ := hexMark_cases hagain
    rw [hmark]
    simp [hb]

/-- With or without a second mark, a digit comes first. -/
theorem exists_digit_cons {again : Text} (hagain : again = [] ∨ HexMark again) (h : Numeral 16 t n) :
    ∃ b rest, again ++ t = b :: rest ∧ isDigitOf 16 b = true := by
  rcases hagain with rfl | hagain
  · obtain ⟨b, rest, rfl, hb, -⟩ := h.exists_cons
    exact ⟨b, rest, rfl, hb⟩
  · obtain ⟨x, -, rfl⟩ := hexMark_cases hagain
    exact ⟨byte '0', x :: t, rfl, by decide⟩

theorem splitSign_split (t : Text) : ∃ sign, Sign sign (splitSign t).1 ∧ t = sign ++ (splitSign t).2 := by
  unfold splitSign
  split
  next => exact ⟨[], .none, rfl⟩
  next b rest =>
    split
    next h => rw [eq_of_beq h]; exact ⟨_, .minus, rfl⟩
    next =>
      split
      next h => rw [eq_of_beq h]; exact ⟨_, .plus, rfl⟩
      next => exact ⟨[], .none, rfl⟩

theorem splitSign_append {sign : Text} {negative : Bool} (hsign : Sign sign negative) {b : UInt8} {rest : Text}
    (hb : isDigitOf 16 b = true) : splitSign (sign ++ b :: rest) = (negative, b :: rest) := by
  obtain ⟨-, hplus, hminus, -⟩ := digit_apart hb
  cases hsign with
  | none => simp [splitSign, hplus, hminus]
  | plus => rfl
  | minus => rfl

/-! ## What the reader accepts -/

theorem ofNat?_eq_some : ofNat? n = some v ↔ n < UInt64.size ∧ v = .ofNat n := by
  unfold ofNat?
  split
  next h => simp [h, eq_comm]
  next h => simp [h]

theorem word_of_whole? (hbase : base ≤ 16) :
    (whole? base t >>= ofNat?) = some v ↔ ∃ n, Numeral base t n ∧ n < UInt64.size ∧ v = .ofNat n := by
  simp only [bind, Option.bind_eq_some_iff, ← numeral_iff hbase, ofNat?_eq_some]

/-- What the reader of hexadecimal numbers takes for one. -/
theorem hexadecimal?_iff (hne : t ≠ []) : hexadecimal? t = some v ↔
    ∃ sign again digits n negative, Sign sign negative ∧ (again = [] ∨ HexMark again) ∧ Numeral 16 digits n ∧
      n < UInt64.size ∧ t = sign ++ (again ++ digits) ∧ v = if negative then 0 - .ofNat n else .ofNat n := by
  have hread : hexadecimal? t = (whole? 16 (dropHexMark (splitSign t).2) >>= ofNat?).map fun n =>
      if (splitSign t).1 then 0 - n else n := by
    unfold hexadecimal?
    rw [if_neg (by simpa using hne)]
  rw [hread, Option.map_eq_some_iff]
  constructor
  · rintro ⟨w, hw, rfl⟩
    obtain ⟨n, hnum, hlt, rfl⟩ := (word_of_whole? (by decide)).mp hw
    obtain ⟨sign, hsign, ht⟩ := splitSign_split t
    obtain ⟨again, hagain, hrest⟩ := dropHexMark_split (splitSign t).2
    exact ⟨sign, again, _, n, _, hsign, hagain, hnum, hlt, ht.trans (congrArg (sign ++ ·) hrest), rfl⟩
  · rintro ⟨sign, again, digits, n, negative, hsign, hagain, hnum, hlt, rfl, rfl⟩
    obtain ⟨b, rest, hcons, hb⟩ := exists_digit_cons hagain hnum
    rw [hcons, splitSign_append hsign hb, ← hcons]
    refine ⟨.ofNat n, ?_, rfl⟩
    rw [dropHexMark_append hagain hnum]
    exact (word_of_whole? (by decide)).mpr ⟨n, hnum, hlt, rfl⟩

theorem untilZero_of_no_zero (h : ∀ b ∈ t, b ≠ 0) : Text.untilZero t = t := by
  have happend := @List.takeWhile_append_of_pos _ (· != 0) t [] (by simpa using h)
  simpa [Text.untilZero] using happend

/-- A token is accepted as an unsigned literal exactly if it is one of these, and gives that word. -/
theorem unsigned?_iff (htoken : Token t) : unsigned? t = some v ↔ Accepted t v := by
  have hzero : ∀ b ∈ t, b ≠ 0 := fun b hb => (htoken b hb).2
  constructor
  · intro h
    unfold unsigned? at h
    split at h
    next =>
      split at h
      next hmarked =>
        obtain ⟨mark, rest, hmark, hne, rfl⟩ := hasHexMark_iff.mp hmarked
        obtain ⟨x, -, rfl⟩ := hexMark_cases hmark
        have hrest : ∀ b ∈ rest, b ≠ 0 := fun b hb => hzero b (List.mem_append_right _ hb)
        simp only [List.cons_append, List.nil_append, List.drop_succ_cons, List.drop_zero] at h
        rw [untilZero_of_no_zero hrest, hexadecimal?_iff hne] at h
        obtain ⟨sign, again, digits, n, negative, hsign, hagain, hnum, hlt, rfl, rfl⟩ := h
        exact .hexadecimal hmark hsign hagain hnum hlt
      next =>
        rw [untilZero_of_no_zero hzero, decimal?, word_of_whole? (by decide)] at h
        obtain ⟨n, hnum, hlt, rfl⟩ := h
        exact .decimal hnum hlt
    next => cases h
  · intro h
    unfold unsigned?
    cases h with
    | @decimal _ n hnum hlt =>
      obtain ⟨b, rest, rfl, hb, -⟩ := hnum.exists_cons
      have hsixteen : ∀ c ∈ b :: rest, isDigitOf 16 c = true := fun c hc =>
        isDigitOf_mono (by decide) (hnum.read.2.1 c hc)
      have hhead : (b :: rest).head?.any Text.isDigit = true := by simpa [isDigit_eq] using hb
      rw [if_pos hhead, hasHexMark_of_digits hsixteen, untilZero_of_no_zero hzero, decimal?]
      exact (word_of_whole? (by decide)).mpr ⟨n, hnum, hlt, rfl⟩
    | @hexadecimal mark sign again digits n negative hmark hsign hagain hnum hlt =>
      obtain ⟨b, rest, hcons, -⟩ := exists_digit_cons hagain hnum
      have hne : sign ++ (again ++ digits) ≠ [] := by simp [hcons]
      have hrest : ∀ b ∈ sign ++ (again ++ digits), b ≠ 0 := fun b hb => hzero b (List.mem_append_right _ hb)
      have hmarked := hasHexMark_iff.mpr ⟨mark, _, hmark, hne, rfl⟩
      obtain ⟨x, -, rfl⟩ := hexMark_cases hmark
      have hdigit : Text.isDigit (byte '0') = true := by decide
      rw [hmarked]
      simp only [List.cons_append, List.nil_append, List.head?_cons, Option.any_some, hdigit, if_true,
        List.drop_succ_cons, List.drop_zero]
      rw [untilZero_of_no_zero hrest]
      exact (hexadecimal?_iff hne).mpr ⟨sign, again, digits, n, negative, hsign, hagain, hnum, hlt, rfl, rfl⟩

/-! ## Spellings and what is accepted beside them -/

/-- A spelling of a number that fits a word is accepted and gives that number. -/
theorem accepted_of_spelling (h : Spelling t v.toNat) : Accepted t v := by
  have hlt : v.toNat < UInt64.size := v.toNat_lt
  rw [← UInt64.ofNat_toNat (x := v)]
  cases h with
  | decimal hnum => exact .decimal hnum hlt
  | hexadecimal hmark hnum => exact .hexadecimal hmark .none (.inl rfl) hnum hlt

/-- What is accepted is a spelling, unless it is disguised. -/
theorem spelling_of_accepted (h : Accepted t v) (hplain : ¬ Disguised t) : Spelling t v.toNat := by
  cases h with
  | decimal hnum hlt => rw [UInt64.toNat_ofNat_of_lt' hlt]; exact .decimal hnum
  | @hexadecimal mark sign again digits n negative hmark hsign hagain hnum hlt =>
    cases hsign with
    | plus => exact absurd ⟨mark, _, _, hmark, .inl rfl, rfl⟩ hplain
    | minus => exact absurd ⟨mark, _, _, hmark, .inr (.inl rfl), rfl⟩ hplain
    | none =>
      rcases hagain with rfl | hagain
      · rw [if_neg Bool.false_ne_true, UInt64.toNat_ofNat_of_lt' hlt]
        exact .hexadecimal hmark hnum
      · exact absurd ⟨mark, again, digits, hmark, .inr (.inr hagain), rfl⟩ hplain

theorem accepted_iff (hplain : ¬ Disguised t) : Accepted t v ↔ Spelling t v.toNat :=
  ⟨fun h => spelling_of_accepted h hplain, accepted_of_spelling⟩

/-- No spelling is disguised. -/
theorem not_disguised_of_spelling (h : Spelling t n) : ¬ Disguised t := by
  rintro ⟨mark, more, rest, hmark, hmore, ht⟩
  obtain ⟨x, hx, rfl⟩ := hexMark_cases hmark
  cases h with
  | decimal hnum =>
    have hdigit := hnum.read.2.1 x (by simp [ht])
    exact (digit_apart (isDigitOf_mono (by decide) hdigit)).2.2.2 hx
  | @hexadecimal mark' digits _ hmark' hnum =>
    obtain ⟨x', -, rfl⟩ := hexMark_cases hmark'
    obtain ⟨-, rfl⟩ := List.append_inj ht rfl
    have hdigit : ∀ b ∈ more, isDigitOf 16 b = true := fun b hb => hnum.read.2.1 b (List.mem_append_left _ hb)
    -- what stands behind the mark is no digit
    rcases hmore with rfl | rfl | hmore
    · exact (digit_apart (hdigit (byte '+') (by decide))).2.1 rfl
    · exact (digit_apart (hdigit (byte '-') (by decide))).2.2.1 rfl
    · obtain ⟨y, hy, rfl⟩ := hexMark_cases hmore
      exact (digit_apart (hdigit y (by simp))).2.2.2 hy

/-! ## Where literals are read -/

/-- A token is read as an unsigned literal if it is accepted; all spellings of numbers below 2^64 are. A token without
a sign or a second mark right behind its mark is read as its spelling says and not otherwise, be it the operand of an
instruction, the target of a jump or an entry that is no label. -/
theorem literals_read (htoken : Token t) (v : UInt64) :
    (unsigned? t = some v ↔ Accepted t v) ∧ (Spelling t v.toNat → unsigned? t = some v) ∧
    (¬ Disguised t →
      (unsigned? t = some v ↔ Spelling t v.toNat) ∧
      (∀ op : Opcode, op.operandWidth ≠ 8 → (operandValue op t = .ok v ↔ Spelling t v.toNat)) ∧
      (looksLikeFloat t = false → t.head? ≠ some (byte '-') →
        (operandValue .pushWord t = .ok v ↔ Spelling t v.toNat)) ∧
      ∀ d : Draft, d.offsetOf? t = none → (d.entryOffset? t = some v.toNat ↔ Spelling t v.toNat)) := by
  have haccepted := unsigned?_iff (v := v) htoken
  refine ⟨haccepted, fun h => haccepted.mpr (accepted_of_spelling h), fun hplain => ?_⟩
  have hread : unsigned? t = some v ↔ Spelling t v.toNat := haccepted.trans (accepted_iff hplain)
  refine ⟨hread, fun op hop => (Dialect.operandValue_of_width hop).trans hread, fun hfloat hminus => ?_, fun d hd => ?_⟩
  · rw [Dialect.operandValue_pushWord, ← hread, word, if_neg (by simp [hfloat]), if_neg (by simpa using hminus)]
    cases unsigned? t <;> simp
  · rw [Draft.entryOffset?, hd, ← hread]
    simp only [Option.map_eq_some_iff]
    exact ⟨fun ⟨w, hw, he⟩ => by rw [hw, UInt64.toNat_inj.mp he], fun h => ⟨v, h, rfl⟩⟩

/-- The largest word, with capital digits and zeros in front. -/
theorem literals_read_largest :
    let t := ofString "0X00FFFFffffFFFFffff"
    Token t ∧ ¬ Disguised t ∧ Spelling t (UInt64.toNat 0xFFFFFFFFFFFFFFFF) ∧
      unsigned? t = some 0xFFFFFFFFFFFFFFFF ∧ operandValue .pushWord t = .ok 0xFFFFFFFFFFFFFFFF := by
  intro t
  have htoken : Token t := forall_mem_of_all (by decide)
  have hnum : Numeral 16 (ofString "00FFFFffffFFFFffff") (UInt64.toNat 0xFFFFFFFFFFFFFFFF) :=
    (numeral_iff (by decide)).mpr (by decide)
  have ht : ofString "0X" ++ ofString "00FFFFffffFFFFffff" = t := by decide
  have hspelling : Spelling t (UInt64.toNat 0xFFFFFFFFFFFFFFFF) := ht ▸ .hexadecimal (.inr rfl) hnum
  have hplain := not_disguised_of_spelling hspelling
  obtain ⟨-, hread, hplainly⟩ := literals_read htoken 0xFFFFFFFFFFFFFFFF
  obtain ⟨-, -, hword, -⟩ := hplainly hplain
  exact ⟨htoken, hplain, hspelling, hread hspelling, (hword (by decide) (by decide)).mpr hspelling⟩

/-- A literal with a sign behind its mark is no spelling of any number, and yet it is read. -/
theorem literals_read_signed :
    let t := ofString "0x-5"
    Token t ∧ (∀ n, ¬ Spelling t n) ∧ unsigned? t = some (0 - 5) ∧
      assemble (ofString "push_imm 0x-5") = ⟨0, #[0x17, 0xFB, 0xFF, 0xFF, 0xFF, 0xFF, 0xFF, 0xFF, 0xFF], #[]⟩ := by
  intro t
  have hdisguised : Disguised t := ⟨ofString "0x", ofString "-", ofString "5", .inl rfl, .inr (.inl rfl), by decide⟩
  refine ⟨forall_mem_of_all (by decide), fun n h => not_disguised_of_spelling h hdisguised, by decide, by decide +kernel⟩

end Assembly

end StackVM
