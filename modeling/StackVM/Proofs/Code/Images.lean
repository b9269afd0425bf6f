/-
  StackVM.Proofs.Code.Images — which bytes are an image.

  The bytes of an image begin with what it declares: the mark, the entry and the length of the code, 24 bytes in all.
  A reader meets bytes of one of four shapes. There are too few for the mark, they carry another mark, the header is
  cut off, or there is a whole header and something behind it. Only the last can be an image, and it is one if the
  code is all there and the entry not past its end.

  - `shape`: there is no fifth shape; `decode_short`, `decode_mismarked`, `decode_cut`, `decode_declaring`: what
    becomes of each.
  - `decode_eq_ok_iff_encode`: the bytes of an image are those that it is written as, and anything behind them.
  - `decode_prefix`: an image that is cut off anywhere ends too soon, whatever its entry is.
  - `decode_answers`: all answers there are.
-/

import StackVM.Image
import StackVM.Proofs.Code.Encoding

namespace StackVM

namespace Image

/-! ## What bytes can be -/

/-- All that stands before the code. -/
def declaring (entry length : UInt64) : List UInt8 :=
  magic ++ LittleEndian.bytes 8 entry ++ LittleEndian.bytes 8 length

/-- There is a mark, and it is another one. -/
def Mismarked (bs : Bytes) : Prop := 8 ≤ bs.size ∧ bs.toList.take 8 ≠ magic

/-- Everything is there, but the entry is past the end of the code. -/
def PastEnd (bs : Bytes) : Prop :=
  ∃ entry length rest, bs.toList = declaring entry length ++ rest ∧ length.toNat ≤ rest.length ∧ length < entry

inductive Shape (bs : Bytes) : Prop
  | short (hsize : bs.size < 8)
  | mismarked (hmark : Mismarked bs)
  | cut (hmark : bs.toList.take 8 = magic) (hsize : bs.size < headerSize)
  | whole (entry length : UInt64) (rest : List UInt8) (hbs : bs.toList = declaring entry length ++ rest)

@[simp] theorem length_declaring (entry length : UInt64) : (declaring entry length).length = headerSize := by
  simp [declaring, magic, headerSize]

theorem take_declaring (entry length : UInt64) (rest : List UInt8) :
    (declaring entry length ++ rest).take 8 = magic := by
  simp [declaring, magic]

theorem toList_encode (i : Image) : i.encode.toList = declaring i.entry (UInt64.ofNat i.code.size) ++ i.code.toList := by
  simp [encode, header, declaring]

variable {bs : Bytes}

/-- Behind the mark, any sixteen bytes declare some entry and some length. -/
theorem exists_declaring (hmark : bs.toList.take 8 = magic) (hsize : headerSize ≤ bs.size) :
    ∃ entry length rest, bs.toList = declaring entry length ++ rest := by
  have hlen : 24 ≤ bs.toList.length := hsize
  have hfirst : ((bs.toList.drop 8).take 8).length = 8 := by rw [List.length_take, List.length_drop]; omega
  have hsecond : ((bs.toList.drop 16).take 8).length = 8 := by rw [List.length_take, List.length_drop]; omega
  obtain ⟨entry, hentry⟩ := LittleEndian.exists_bytes (Nat.le_of_eq hfirst)
  obtain ⟨length, hlength⟩ := LittleEndian.exists_bytes (Nat.le_of_eq hsecond)
  refine ⟨entry, length, bs.toList.drop 24, ?_⟩
  rw [hfirst] at hentry
  rw [hsecond] at hlength
  have hdrop (n : Nat) : bs.toList.drop n = (bs.toList.drop n).take 8 ++ bs.toList.drop (n + 8) := by
    rw [← List.drop_drop, List.take_append_drop]
  calc bs.toList
      = bs.toList.take 8 ++ bs.toList.drop 8 := (List.take_append_drop 8 _).symm
    _ = magic ++ ((bs.toList.drop 8).take 8 ++ ((bs.toList.drop 16).take 8 ++ bs.toList.drop 24)) := by
        rw [hmark, ← hdrop 16, ← hdrop 8]
    _ = declaring entry length ++ bs.toList.drop 24 := by
        rw [declaring, hentry, hlength, List.append_assoc, List.append_assoc]

theorem shape (bs : Bytes) : Shape bs := by
  by_cases hshort : bs.size < 8
  · exact .short hshort
  by_cases hmark : bs.toList.take 8 = magic
  · by_cases hcut : bs.size < headerSize
    · exact .cut hmark hcut
    · obtain ⟨entry, length, rest, hbs⟩ := exists_declaring hmark (Nat.le_of_not_lt hcut)
      exact .whole entry length rest hbs
  · exact .mismarked ⟨Nat.le_of_not_lt hshort, hmark⟩

/-! ## What becomes of them -/

theorem decode_short (hsize : bs.size < 8) : decode bs = .error .unexpectedEnd := by
  rw [decode, if_pos hsize]

theorem toList_extract_mark (bs : Bytes) : (bs.extract 0 8).toList = bs.toList.take 8 := by
  simp

theorem decode_mismarked (h : Mismarked bs) : decode bs = .error .invalidMagic := by
  rw [decode, if_neg (Nat.not_lt_of_le h.1), toList_extract_mark, if_pos (bne_iff_ne.mpr h.2)]

theorem decode_cut (hmark : bs.toList.take 8 = magic) (hsize : bs.size < headerSize) :
    decode bs = .error .unexpectedEnd := by
  rw [decode, toList_extract_mark, hmark, bne_self_eq_false, if_pos hsize]
  split <;> rfl

/-- Behind a whole header, the length is looked at first and then the entry. -/
theorem decode_declaring {entry length : UInt64} {rest : List UInt8} (hbs : bs.toList = declaring entry length ++ rest) :
    decode bs =
      if rest.length < length.toNat then .error .unexpectedEnd
      else if length < entry then .error .entryOutOfRange
      else .ok ⟨entry, (rest.take length.toNat).toArray⟩ := by
  have hsize : bs.size = headerSize + rest.length := by
    rw [← Array.length_toList, hbs, List.length_append, length_declaring]
  have hmark : bs.toList.take 8 = magic := by rw [hbs, take_declaring]
  have hsplit : bs.toList = magic ++ LittleEndian.bytes 8 entry ++ (LittleEndian.bytes 8 length ++ rest) := by
    rw [hbs]; simp [declaring]
  have hentry : LittleEndian.read bs 8 8 = entry := LittleEndian.read_bytes hsplit entry.toNat_lt
  have hlength : LittleEndian.read bs 16 8 = length :=
    LittleEndian.read_bytes (hbs : bs.toList = (magic ++ LittleEndian.bytes 8 entry) ++ _ ++ rest) length.toNat_lt
  have hcode : bs.extract headerSize (headerSize + length.toNat) = (rest.take length.toNat).toArray := by
    apply Array.toList_inj.mp
    rw [Array.toList_extract, hbs, List.extract_eq_take_drop, ← length_declaring entry length, List.drop_left]
    simp
  rw [decode, if_neg (by rw [hsize, headerSize]; omega), toList_extract_mark, hmark, bne_self_eq_false,
    if_neg Bool.false_ne_true, if_neg (by rw [hsize]; omega)]
  simp only [hentry, hlength, hcode, hsize, Nat.add_sub_cancel_left]

/-! ## What is an image -/

variable {i : Image}

theorem decode_encode_append (hcode : i.code.size < UInt64.size) (hentry : i.entry.toNat ≤ i.code.size)
    (tail : Bytes) : decode (i.encode ++ tail) = .ok i := by
  have hlength : (UInt64.ofNat i.code.size).toNat = i.code.size := UInt64.toNat_ofNat_of_lt' hcode
  have hbs : (i.encode ++ tail).toList =
      declaring i.entry (UInt64.ofNat i.code.size) ++ (i.code.toList ++ tail.toList) := by
    rw [Array.toList_append, toList_encode, List.append_assoc]
  rw [decode_declaring hbs, hlength, if_neg (by simp), if_neg (by rw [UInt64.lt_iff_toNat_lt, hlength]; omega),
    ← Array.length_toList, List.take_left, Array.toArray_toList]

/-- The entry of what is read lies in its code, and what was read is what it is written as, and a tail. -/
theorem encode_append_of_decode (hd : decode bs = .ok i) :
    i.entry.toNat ≤ i.code.size ∧ ∃ tail, bs = i.encode ++ tail := by
  cases shape bs with
  | short hsize => rw [decode_short hsize] at hd; cases hd
  | mismarked hmark => rw [decode_mismarked hmark] at hd; cases hd
  | cut hmark hsize => rw [decode_cut hmark hsize] at hd; cases hd
  | whole entry length rest hbs =>
    rw [decode_declaring hbs] at hd
    split at hd
    next => cases hd
    next hroom =>
      split at hd
      next => cases hd
      next hentry =>
        cases hd
        have hsize : (rest.take length.toNat).toArray.size = length.toNat := by
          rw [List.size_toArray, List.length_take, Nat.min_eq_left (Nat.le_of_not_lt hroom)]
        refine ⟨?_, (rest.drop length.toNat).toArray, ?_⟩
        · rw [hsize]
          exact Nat.le_of_not_lt hentry
        · apply Array.toList_inj.mp
          rw [Array.toList_append, toList_encode, hsize, UInt64.ofNat_toNat, hbs, List.append_assoc,
            List.take_append_drop]

theorem decode_eq_ok_iff_encode (hcode : i.code.size < UInt64.size) :
    decode bs = .ok i ↔ i.entry.toNat ≤ i.code.size ∧ ∃ tail, bs = i.encode ++ tail := by
  refine ⟨encode_append_of_decode, ?_⟩
  rintro ⟨hentry, tail, rfl⟩
  exact decode_encode_append hcode hentry tail

/-! ## What is not -/

/-- A header that is cut off. -/
theorem decode_prefix_declaring {entry length : UInt64} (hbs : bs.toList <+: declaring entry length)
    (hsize : bs.size < headerSize) : decode bs = .error .unexpectedEnd := by
  by_cases hshort : bs.size < 8
  · exact decode_short hshort
  · refine decode_cut ?_ hsize
    obtain ⟨after, hafter⟩ := hbs
    rw [← take_declaring entry length [], List.append_nil, ← hafter, List.take_append_of_le_length]
    rw [Array.length_toList]
    omega

theorem decode_prefix (hcode : i.code.size < UInt64.size) (hbs : bs.toList <+: i.encode.toList) (hne : bs ≠ i.encode) :
    decode bs = .error .unexpectedEnd := by
  rw [toList_encode] at hbs
  by_cases hsize : bs.size < headerSize
  · refine decode_prefix_declaring (List.prefix_of_prefix_length_le hbs (List.prefix_append _ i.code.toList) ?_) hsize
    rw [length_declaring, Array.length_toList]
    omega
  · obtain ⟨rest, hrest⟩ := List.prefix_of_prefix_length_le (List.prefix_append _ i.code.toList) hbs
      (by rw [length_declaring, Array.length_toList]; omega)
    rw [← hrest, List.prefix_append_right_inj] at hbs
    have hlt : rest.length < i.code.toList.length := by
      refine Nat.lt_of_le_of_ne hbs.length_le fun heq => hne (Array.toList_inj.mp ?_)
      rw [← hrest, toList_encode, hbs.eq_of_length heq]
    rw [decode_declaring hrest.symm, UInt64.toNat_ofNat_of_lt' hcode, if_pos (by rwa [← Array.length_toList])]

theorem PastEnd.decode (h : PastEnd bs) : decode bs = .error .entryOutOfRange := by
  obtain ⟨entry, length, rest, hbs, hroom, hentry⟩ := h
  rw [decode_declaring hbs, if_neg (Nat.not_lt_of_le hroom), if_pos hentry]

/-- Bytes that are refused for anything but the mark or the entry have come to an end too soon. -/
theorem decode_error {e : DecodeError} (hd : decode bs = .error e) :
    (e = .invalidMagic ∧ Mismarked bs) ∨ (e = .entryOutOfRange ∧ PastEnd bs) ∨ e = .unexpectedEnd := by
  cases shape bs with
  | short hsize => rw [decode_short hsize] at hd; cases hd; exact .inr (.inr rfl)
  | mismarked hmark => rw [decode_mismarked hmark] at hd; cases hd; exact .inl ⟨rfl, hmark⟩
  | cut hmark hsize => rw [decode_cut hmark hsize] at hd; cases hd; exact .inr (.inr rfl)
  | whole entry length rest hbs =>
    rw [decode_declaring hbs] at hd
    split at hd
    next => cases hd; exact .inr (.inr rfl)
    next hroom =>
      split at hd
      next hentry =>
        cases hd
        exact .inr (.inl ⟨rfl, entry, length, rest, hbs, Nat.le_of_not_lt hroom, hentry⟩)
      next => cases hd

/-- Where bytes are refused, which of the three reasons is given depends on the mark and the entry alone. -/
theorem decode_error_iff {e : DecodeError} (hd : decode bs = .error e) :
    (e = .invalidMagic ↔ Mismarked bs) ∧ (e = .entryOutOfRange ↔ PastEnd bs) ∧
      (e = .unexpectedEnd ↔ ¬ Mismarked bs ∧ ¬ PastEnd bs) := by
  have hmark (h : Mismarked bs) : e = .invalidMagic := by
    rw [decode_mismarked h] at hd
    cases hd
    rfl
  have hpast (h : PastEnd bs) : e = .entryOutOfRange := by
    rw [h.decode] at hd
    cases hd
    rfl
  have hcases := decode_error hd
  refine ⟨⟨?_, hmark⟩, ⟨?_, hpast⟩, ?_, ?_⟩
  · rintro rfl
    simpa using hcases
  · rintro rfl
    simpa using hcases
  · rintro rfl
    exact ⟨fun h => absurd (hmark h) (by simp), fun h => absurd (hpast h) (by simp)⟩
  · rintro ⟨hno, hno'⟩
    simpa [hno, hno'] using hcases

/-- The image that a caller is left with who has had another one read in its place: the old one where the bytes are
refused. -/
def reread (old : Image) (bs : Bytes) : Image :=
  match decode bs with
  | .ok i => i
  | .error _ => old

theorem reread_of_error {e : DecodeError} (hd : decode bs = .error e) (old : Image) : reread old bs = old := by
  rw [reread, hd]

/-- The bytes of an image are those that it is written as with anything behind them, and its entry is not past the end.
An image that is cut off is refused since it ends too soon, whatever its entry. Bytes are refused for their mark where
it is there and another one, for the entry where nothing else is wrong, and otherwise since they end too soon; and then
no image is replaced. -/
theorem decode_answers :
    (∀ (bs : Bytes) (i : Image), i.code.size < UInt64.size →
      (decode bs = .ok i ↔ i.entry.toNat ≤ i.code.size ∧ ∃ tail, bs = i.encode ++ tail)) ∧
    (∀ (i : Image) (bs : Bytes), i.code.size < UInt64.size → bs.toList <+: i.encode.toList → bs ≠ i.encode →
      decode bs = .error .unexpectedEnd) ∧
    ∀ (bs : Bytes) (e : DecodeError), decode bs = .error e →
      (e = .invalidMagic ↔ Mismarked bs) ∧ (e = .entryOutOfRange ↔ PastEnd bs) ∧
        (e = .unexpectedEnd ↔ ¬ Mismarked bs ∧ ¬ PastEnd bs) ∧ ∀ old, reread old bs = old := by
  refine ⟨fun _ _ => decode_eq_ok_iff_encode, fun _ _ => decode_prefix, fun bs e hd => ?_⟩
  obtain ⟨hmark, hpast, hend⟩ := decode_error_iff hd
  exact ⟨hmark, hpast, hend, reread_of_error hd⟩

/-- An image of two bytes with its entry at the end and a byte behind it; the same cut off; and with an entry that is
past the end. -/
theorem decode_answers_two :
    let i : Image := ⟨2, #[1, 255]⟩
    let past : Image := ⟨3, #[1, 255]⟩
    decode (i.encode ++ #[7]) = .ok i ∧ decode (past.encode.extract 0 25) = .error .unexpectedEnd ∧
      PastEnd past.encode ∧ reread i past.encode = i := by
  intro i past
  obtain ⟨hok, hcut, hrefused⟩ := decode_answers
  have hd : decode past.encode = .error .entryOutOfRange := by cbv
  obtain ⟨-, hpast, -, hold⟩ := hrefused past.encode .entryOutOfRange hd
  exact ⟨(hok (i.encode ++ #[7]) i (by decide)).mpr ⟨by decide, #[7], rfl⟩,
    hcut past (past.encode.extract 0 25) (by decide) ⟨[255], by decide⟩ (by decide), hpast.mp rfl, hold i⟩

end Image

end StackVM
