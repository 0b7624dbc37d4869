import BslLint.Text.Encoding
import Mathlib.Data.List.Basic

/-!
# Texts are read from their bytes

However a text was written, `Text.decode` gets it back (`decode_undoes_encodings`). There are three
parts to that. Each encoding is undone by its own reader: core's for units of 8 bits,
`Utf16.decode`, which has to put characters of two units together again, and a table for
Windows-1251. Nothing is taken for what it is not, because units of 8 bits never begin with the mark
of the encodings by units of 16 bits (`Encoding.ofBytes_utf8`). And the mark that is taken away at
the end is the one that was put in front, since the text itself does not begin with one.
-/

namespace BslLint.Text

/-! ### Units of 8 bits -/

namespace Utf8

/-- The bytes of a text are those that core gives it. -/
theorem toByteArray_encode (cs : List Char) : (encode cs).toByteArray = cs.utf8Encode := rfl

/-- What is written in units of 8 bits can be read in them. -/
theorem isUtf8_encode (cs : List Char) : isUtf8 (encode cs) = true :=
  ByteArray.validateUTF8_eq_true_iff.2 (.intro cs (toByteArray_encode cs))

/-- No character begins with one of the two bytes of the mark in units of 16 bits. -/
theorem lt_of_mem_utf8EncodeChar {c : Char} {b : UInt8}
    (h : (String.utf8EncodeChar c).head? = some b) : b.toNat < 0xfe := by
  unfold String.utf8EncodeChar at h
  simp only at h
  split at h
  · obtain rfl := Option.some.inj h
    rw [UInt8.toNat_ofNat']
    omega
  · split at h
    · obtain rfl := Option.some.inj h
      rw [UInt8.toNat_ofNat']
      omega
    · split at h
      all_goals
        obtain rfl := Option.some.inj h
        rw [UInt8.toNat_ofNat']
        omega

/-- So no text begins with one. -/
theorem lt_of_head_encode {cs : List Char} {b : UInt8} (h : (encode cs).head? = some b) :
    b.toNat < 0xfe := by
  rcases cs with - | ⟨c, cs⟩
  · exact nomatch h
  · rw [encode, List.flatMap_cons, List.head?_append_of_ne_nil _ String.utf8EncodeChar_ne_nil] at h
    exact lt_of_mem_utf8EncodeChar h

end Utf8

/-- Units of 8 bits are not taken for anything else. -/
theorem Encoding.ofBytes_utf8 (cs : List Char) : ofBytes (Utf8.encode cs) = .utf8 := by
  have hne : ∀ b, (Utf8.encode cs).head? = some b → b ≠ 0xff ∧ b ≠ 0xfe := by
    intro b hb
    have hlt := Utf8.lt_of_head_encode hb
    exact ⟨fun h ↦ by simp [h] at hlt, fun h ↦ by simp [h] at hlt⟩
  unfold ofBytes
  split
  next heq => exact absurd rfl (hne _ (by rw [heq]; rfl)).1
  next heq => exact absurd rfl (hne _ (by rw [heq]; rfl)).2
  next => rw [if_pos (Utf8.isUtf8_encode cs)]

theorem Encoding.decode_utf8 (cs : List Char) :
    Encoding.utf8.decode (Utf8.encode cs) = String.ofList cs := by
  have hvalid : (Utf8.encode cs).toByteArray.IsValidUTF8 := .intro cs (Utf8.toByteArray_encode cs)
  rw [decode, String.fromUTF8?, dif_pos hvalid]
  rfl

/-! ### Units of 16 bits -/

namespace Utf16

/-- The number of a character is not one of the halves of characters. -/
theorem toNat_cases (c : Char) : c.toNat < 0xd800 ∨ 0xe000 ≤ c.toNat ∧ c.toNat < 0x110000 :=
  c.valid.imp id fun h ↦ ⟨h.1, h.2⟩

/-- A unit is made of its two bytes again. -/
theorem exists_bytes (order : ByteOrder) {u : Nat} (h : u < 0x10000) :
    ∃ a b, bytes order u = [a, b] ∧ unit order a b = u := by
  have hlow : (u % 0x100).toUInt8.toNat = u % 0x100 := by
    rw [Nat.toUInt8_eq, UInt8.toNat_ofNat']
    omega
  have hhigh : (u / 0x100).toUInt8.toNat = u / 0x100 := by
    rw [Nat.toUInt8_eq, UInt8.toNat_ofNat']
    omega
  cases order
  all_goals
    refine ⟨_, _, rfl, ?_⟩
    simp only [unit, hlow, hhigh]
    omega

/-- The two bytes of a unit are read first. -/
theorem decode_bytes (order : ByteOrder) {u : Nat} (h : u < 0x10000) (rest : List UInt8) :
    decode order none (bytes order u ++ rest) = (begin u).1 ++ decode order (begin u).2 rest := by
  obtain ⟨a, b, hbytes, rfl⟩ := exists_bytes order h
  rw [hbytes]
  rfl

/-- A character of one unit. -/
theorem begin_of_lt {c : Char} (h : c.toNat < 0x10000) : begin c.toNat = ([c], none) := by
  have hcases := toNat_cases c
  have hhigh : isHigh c.toNat = false := by
    simp only [isHigh, Bool.and_eq_false_iff, decide_eq_false_iff_not]
    omega
  have hlow : isLow c.toNat = false := by
    simp only [isLow, Bool.and_eq_false_iff, decide_eq_false_iff_not]
    omega
  rw [begin, if_neg (by simp [hhigh]), if_neg (by simp [hlow]), Char.ofNat_toNat]

theorem isHigh_iff {u : Nat} : isHigh u = true ↔ 0xd800 ≤ u ∧ u < 0xdc00 := by
  rw [isHigh, Bool.and_eq_true, decide_eq_true_eq, decide_eq_true_eq]

theorem isLow_iff {u : Nat} : isLow u = true ↔ 0xdc00 ≤ u ∧ u < 0xe000 := by
  rw [isLow, Bool.and_eq_true, decide_eq_true_eq, decide_eq_true_eq]

/-- A first half and a second half are read as one character. -/
theorem decode_halves (order : ByteOrder) {high low : Nat} (hhigh : isHigh high = true)
    (hlow : isLow low = true) (rest : List UInt8) :
    decode order none (bytes order high ++ (bytes order low ++ rest)) =
      joined high low :: decode order none rest := by
  have hbegin : begin high = ([], some high) := if_pos hhigh
  have hhighlt : high < 0x10000 := Nat.lt_trans (isHigh_iff.1 hhigh).2 (by decide)
  have hlowlt : low < 0x10000 := Nat.lt_trans (isLow_iff.1 hlow).2 (by decide)
  obtain ⟨a, b, hbytes, rfl⟩ := exists_bytes order hlowlt
  rw [decode_bytes order hhighlt, hbegin, hbytes]
  show decode order (some high) (a :: b :: rest) = _
  rw [decode, if_pos hlow]

/-- A character of two units has a first half and a second one, which make it. -/
theorem joined_units {c : Char} (h : 0x10000 ≤ c.toNat) :
    isHigh (0xd800 + (c.toNat - 0x10000) / 0x400) = true ∧
      isLow (0xdc00 + (c.toNat - 0x10000) % 0x400) = true ∧
      joined (0xd800 + (c.toNat - 0x10000) / 0x400) (0xdc00 + (c.toNat - 0x10000) % 0x400) = c := by
  have hcases := toNat_cases c
  refine ⟨isHigh_iff.2 (by omega), isLow_iff.2 (by omega), ?_⟩
  have hnumber : 0x10000 + 0x400 * ((c.toNat - 0x10000) / 0x400) + (c.toNat - 0x10000) % 0x400 =
      c.toNat := by omega
  rw [joined, Nat.add_sub_cancel_left, Nat.add_sub_cancel_left, hnumber, Char.ofNat_toNat]

/-- A character is read from its units, one or two. -/
theorem decode_units (order : ByteOrder) (c : Char) (rest : List UInt8) :
    decode order none ((units c).flatMap (bytes order) ++ rest) = c :: decode order none rest := by
  rw [units]
  split
  next h =>
    rw [List.flatMap_singleton, decode_bytes order h, begin_of_lt h]
    rfl
  next h =>
    obtain ⟨hhigh, hlow, hjoined⟩ := joined_units (Nat.le_of_not_lt h)
    rw [List.flatMap_cons, List.flatMap_singleton, List.append_assoc,
      decode_halves order hhigh hlow, hjoined]

/-- **Units of 16 bits are read as the text that they were written for**, in either order of bytes.
-/
theorem decode_encode (order : ByteOrder) (cs : List Char) :
    decode order none (encode order cs) = cs := by
  induction cs with
  | nil => rfl
  | cons c cs ih =>
    rw [encode, List.flatMap_cons, List.flatMap_append, decode_units]
    exact congrArg (c :: ·) ih

end Utf16

/-! ### Windows-1251 -/

namespace Windows1251

/-- A character that has a byte is written as a byte that stands for it. -/
theorem exists_byte? {c : Char} (h : ∃ b, char b = c) : ∃ b, byte? c = some b ∧ char b = c := by
  obtain ⟨b, hb⟩ := h
  have hsome : (byte? c).isSome := by
    rw [byte?, List.find?_isSome]
    refine ⟨b, List.mem_map.2 ⟨b.toNat, List.mem_range.2 b.toNat_lt, ?_⟩, beq_iff_eq.2 hb⟩
    rw [Nat.toUInt8_eq, UInt8.ofNat_toNat]
  obtain ⟨b', hb'⟩ := Option.isSome_iff_exists.1 hsome
  rw [byte?] at hb'
  have hchar := List.find?_some hb'
  exact ⟨b', hb', beq_iff_eq.1 hchar⟩

/-- A text of such characters is written in bytes, and read from them. -/
theorem exists_encode? {cs : List Char} (h : ∀ c ∈ cs, ∃ b, char b = c) :
    ∃ bytes, encode? cs = some bytes ∧ decode bytes = cs := by
  induction cs with
  | nil => exact ⟨[], rfl, rfl⟩
  | cons c cs ih =>
    obtain ⟨hc, hcs⟩ := List.forall_mem_cons.1 h
    obtain ⟨b, hb, hchar⟩ := exists_byte? hc
    obtain ⟨bytes, hbytes, hdecode⟩ := ih hcs
    rw [encode?] at hbytes
    refine ⟨b :: bytes, ?_, ?_⟩
    · rw [encode?, List.mapM_cons, hb, hbytes]
      rfl
    · rw [decode, List.map_cons, hchar, ← decode, hdecode]

/-- The mark is no character of the table. -/
theorem char_ne_mark : ∀ b, char b ≠ mark := by
  have hall : ∀ n : Fin 256, char (UInt8.ofNat n) ≠ mark := by decide +kernel
  intro b
  have hb := hall ⟨b.toNat, b.toNat_lt⟩
  rwa [UInt8.ofNat_toNat] at hb

end Windows1251

/-! ### Which encoding it is -/

/-- Bytes that begin with a mark of some encoding. -/
def HasMark (bytes : List UInt8) : Prop :=
  [0xff, 0xfe] <+: bytes ∨ [0xfe, 0xff] <+: bytes ∨ [0xef, 0xbb, 0xbf] <+: bytes

instance (bytes : List UInt8) : Decidable (HasMark bytes) :=
  inferInstanceAs (Decidable (_ ∨ _ ∨ _))

/-- What is no text in units of 8 bits and has no mark is taken for Windows-1251. -/
theorem Encoding.ofBytes_windows1251 {bytes : List UInt8} (hutf8 : isUtf8 bytes = false)
    (hmark : ¬HasMark bytes) : ofBytes bytes = .windows1251 := by
  unfold ofBytes
  split
  next rest => exact absurd (.inl (List.prefix_append [0xff, 0xfe] rest)) hmark
  next rest => exact absurd (.inr (.inl (List.prefix_append [0xfe, 0xff] rest))) hmark
  next =>
    rw [if_neg (Bool.eq_false_iff.1 hutf8)]
    split
    next rest _ _ => exact absurd (.inr (.inr (List.prefix_append [0xef, 0xbb, 0xbf] rest))) hmark
    next => rfl

/-- A text without a mark stays as it is. -/
theorem withoutMark_of_head {s : String} (h : s.toList.head? ≠ some mark) : withoutMark s = s := by
  unfold withoutMark
  split
  next c rest heq => exact if_neg fun hc ↦ h (by rw [heq, hc]; rfl)
  next => rfl

theorem withoutMark_mark (cs : List Char) :
    withoutMark (String.ofList (mark :: cs)) = String.ofList cs := by
  rw [withoutMark, String.toList_ofList]
  exact if_pos rfl

/-- **Decoding undoes every encoding.** A text that does not begin with a mark is read from its
units of 8 bits, with their mark or without, and from its units of 16 bits in both orders, with
their marks. A text of the characters of Windows-1251 is read from its bytes there, if these have no
mark and are not a text in units of 8 bits as well. -/
theorem decode_undoes_encodings (s : String) :
    (s.toList.head? ≠ some mark →
      decode (Utf8.encode s.toList) = s ∧
      decode ([0xef, 0xbb, 0xbf] ++ Utf8.encode s.toList) = s ∧
      decode ([0xff, 0xfe] ++ Utf16.encode .little s.toList) = s ∧
      decode ([0xfe, 0xff] ++ Utf16.encode .big s.toList) = s) ∧
    ((∀ c ∈ s.toList, ∃ b, Windows1251.char b = c) →
      ∃ bytes, Windows1251.encode? s.toList = some bytes ∧
        (isUtf8 bytes = false → ¬HasMark bytes → decode bytes = s)) := by
  refine ⟨fun hhead ↦ ⟨?_, ?_, ?_, ?_⟩, fun hchars ↦ ?_⟩
  · rw [decode, Encoding.ofBytes_utf8, Encoding.decode_utf8, String.ofList_toList,
      withoutMark_of_head hhead]
  · -- The mark of units of 8 bits is the mark written in them.
    have hmark : [0xef, 0xbb, 0xbf] ++ Utf8.encode s.toList = Utf8.encode (mark :: s.toList) := by
      rw [Utf8.encode, Utf8.encode, List.flatMap_cons]
      rfl
    rw [hmark, decode, Encoding.ofBytes_utf8, Encoding.decode_utf8, withoutMark_mark,
      String.ofList_toList]
  · show withoutMark (String.ofList (Utf16.decode .little none (Utf16.encode .little s.toList))) = s
    rw [Utf16.decode_encode, String.ofList_toList, withoutMark_of_head hhead]
  · show withoutMark (String.ofList (Utf16.decode .big none (Utf16.encode .big s.toList))) = s
    rw [Utf16.decode_encode, String.ofList_toList, withoutMark_of_head hhead]
  · -- The mark is no character of Windows-1251, so none is taken off.
    obtain ⟨bytes, hbytes, hdecode⟩ := Windows1251.exists_encode? hchars
    refine ⟨bytes, hbytes, fun hutf8 hmark ↦ ?_⟩
    have hhead : s.toList.head? ≠ some mark := fun h ↦ by
      obtain ⟨b, hb⟩ := hchars mark (List.mem_of_mem_head? h)
      exact Windows1251.char_ne_mark b hb
    rw [decode, Encoding.ofBytes_windows1251 hutf8 hmark, Encoding.decode, hdecode,
      String.ofList_toList, withoutMark_of_head hhead]

/-- A character of two units, and two letters in Windows-1251. -/
theorem letters_are_read_from_bytes :
    ("А😀".toList.head? ≠ some mark ∧
      decode [0xff, 0xfe, 0x10, 0x04, 0x3d, 0xd8, 0x00, 0xde] = "А😀") ∧
    ((∀ c ∈ "Да".toList, ∃ b, Windows1251.char b = c) ∧ isUtf8 [0xc4, 0xe0] = false ∧
      ¬HasMark [0xc4, 0xe0] ∧ decode [0xc4, 0xe0] = "Да") := by
  have hhead : "А😀".toList.head? ≠ some mark := by decide
  obtain ⟨-, -, hlittle, -⟩ := (decode_undoes_encodings "А😀").1 hhead
  have hchars : ∀ c ∈ "Да".toList, ∃ b, Windows1251.char b = c :=
    List.forall_mem_cons.2 ⟨⟨0xc4, by decide⟩, List.forall_mem_singleton.2 ⟨0xe0, by decide⟩⟩
  obtain ⟨bytes, hbytes, hdecode⟩ := (decode_undoes_encodings "Да").2 hchars
  have hencode : Windows1251.encode? "Да".toList = some [0xc4, 0xe0] := by decide +kernel
  obtain rfl : bytes = [0xc4, 0xe0] := Option.some.inj (hbytes.symm.trans hencode)
  have hutf8 : isUtf8 [0xc4, 0xe0] = false := by decide +kernel
  have hmark : ¬HasMark [0xc4, 0xe0] := by decide
  exact ⟨⟨hhead, hlittle⟩, hchars, hutf8, hmark, hdecode hutf8 hmark⟩

end BslLint.Text
