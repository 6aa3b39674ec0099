import Chip8.Listing
import Chip8.Proofs.Numeral

/-!
# What a listing shows

A listing has one line for each two bytes of an image. A line begins with the address of the first
of them, and its second column shows the bytes, so the image can be read back from the lines.

## Shape of the proof

`Shows` is what a line of words and a line of a last byte have in common: the address, and then the
digits of the bytes. The lines are made two bytes at a time, and what is said about all of them is
proved along `linesFrom`, for every address. `column` finds the second column of any text by its
blanks, without knowing the address.
-/

namespace Chip8.Listing

/-! ## Lines by number -/

/-- One line for each two bytes, and one for a last byte by itself. -/
theorem length_linesFrom (address : Nat) (image : List UInt8) :
    (linesFrom address image).length = (image.length + 1) / 2 := by
  fun_induction linesFrom address image with
  | case1 address hi lo rest ih =>
    simp only [List.length_cons, ih]
    omega
  | case2 => simp
  | case3 => rfl

/-- The line of the two bytes at an even place. -/
theorem getElem?_linesFrom {address k : Nat} {image : List UInt8} {hi lo : UInt8}
    (hhi : image[2 * k]? = some hi) (hlo : image[2 * k + 1]? = some lo) :
    (linesFrom address image)[k]? =
      some (wordLine (address + 2 * k) (Opcode.ofBytes hi lo)) := by
  fun_induction linesFrom address image generalizing k with
  | case1 address first second rest ih =>
    cases k with
    | zero =>
      cases hhi
      cases hlo
      rfl
    | succ k =>
      have haddress : address + 2 * (k + 1) = address + 2 + 2 * k := by omega
      rw [List.getElem?_cons_succ, haddress]
      exact ih hhi hlo
  | case2 | case3 => simp at hlo

/-! ## Columns -/

/-- The two digits of each byte. -/
def byteDigits (bytes : List UInt8) : List Char :=
  bytes.flatMap fun b => Numeral.padded 16 2 b.toNat

/-- The line begins with the address, and its second column shows the bytes. -/
def Shows (address : Nat) (bytes : List UInt8) (line : String) : Prop :=
  ∃ text, line.toList =
    Numeral.padded 16 3 address ++ ' ' :: ' ' :: (byteDigits bytes ++ ' ' :: text)

/-- The line of a word shows its two bytes. -/
theorem shows_wordLine (address : Nat) (hi lo : UInt8) :
    Shows address [hi, lo] (wordLine address (Opcode.ofBytes hi lo)) := by
  refine ⟨' ' :: (wordText (Opcode.ofBytes hi lo)).toList, ?_⟩
  have hdigits : byteDigits [hi, lo] = Numeral.padded 16 4 (Opcode.ofBytes hi lo).toNat := by
    rw [Opcode.toNat_ofBytes, Numeral.padded_four lo.toNat_lt]
    simp [byteDigits]
  simp [wordLine, Numeral.hex, hdigits]

theorem shows_byteLine (address : Nat) (b : UInt8) :
    Shows address [b] (byteLine address b) := by
  refine ⟨"   DB ".toList ++ (Numeral.marked 2 b.toNat).toList, ?_⟩
  simp [byteLine, Numeral.hex, byteDigits]

/-- Line `k` begins with the address of byte `2 * k`. -/
theorem exists_shows_of_getElem? {address k : Nat} {image : List UInt8} {line : String}
    (h : (linesFrom address image)[k]? = some line) :
    ∃ bytes, Shows (address + 2 * k) bytes line := by
  fun_induction linesFrom address image generalizing k with
  | case1 address hi lo rest ih =>
    cases k with
    | zero =>
      cases h
      exact ⟨_, shows_wordLine address hi lo⟩
    | succ k =>
      have haddress : address + 2 * (k + 1) = address + 2 + 2 * k := by omega
      rw [haddress]
      exact ih h
  | case2 address b =>
    cases k with
    | zero =>
      cases h
      exact ⟨_, shows_byteLine address b⟩
    | succ k => cases h
  | case3 => cases h

/-! ## Reading back -/

/-- The second column of a text whose columns are set apart by blanks. -/
def column (text : List Char) : List Char :=
  ((text.dropWhile (· != ' ')).dropWhile (· == ' ')).takeWhile (· != ' ')

/-- The bytes that are written in hexadecimal, two digits each. -/
def bytesOf : List Char → List UInt8
  | high :: low :: rest => UInt8.ofNat (Numeral.readHex [high, low]) :: bytesOf rest
  | _ => []

/-- The image that the lines of a listing show. -/
def imageOf (lines : List String) : List UInt8 :=
  lines.flatMap fun line => bytesOf (column line.toList)

/-- The second column is what stands between the blanks behind the first one and the next blank. -/
theorem column_append {first second : List Char} (hfirst : ' ' ∉ first) (hsecond : ' ' ∉ second)
    (hne : second ≠ []) (text : List Char) :
    column (first ++ ' ' :: ' ' :: (second ++ ' ' :: text)) = second := by
  have hskip : ∀ {cs : List Char}, ' ' ∉ cs → ∀ c ∈ cs, (c != ' ') = true := by
    rintro cs hcs c hc
    exact bne_iff_ne.mpr fun h => hcs (h ▸ hc)
  obtain ⟨c, cs, rfl⟩ := List.exists_cons_of_ne_nil hne
  have hc : (c == ' ') = false := by
    simpa using hskip hsecond c List.mem_cons_self
  rw [column, List.dropWhile_append_of_pos (hskip hfirst)]
  simp only [List.dropWhile_cons, bne_self_eq_false, Bool.false_eq_true, if_false, beq_self_eq_true,
    if_true, List.cons_append, hc]
  rw [← List.cons_append, List.takeWhile_append_of_pos (hskip hsecond)]
  simp

/-- No blank is a digit. -/
theorem blank_notMem_padded {width : Nat} (hw : 0 < width) (n : Nat) :
    ' ' ∉ Numeral.padded 16 width n := by
  intro h
  exact absurd ((Numeral.isHex_padded hw n).mem_hexDigits _ h) (by decide)

theorem blank_notMem_byteDigits (bytes : List UInt8) : ' ' ∉ byteDigits bytes := by
  rw [byteDigits, List.mem_flatMap]
  rintro ⟨b, -, hb⟩
  exact blank_notMem_padded (by decide) _ hb

/-- Bytes are read back from their digits. -/
theorem bytesOf_byteDigits (bytes : List UInt8) : bytesOf (byteDigits bytes) = bytes := by
  induction bytes with
  | nil => rfl
  | cons b bytes ih =>
    have htwo := Numeral.padded_two_of_lt b.toNat_lt
    have hread := Numeral.readHex_padded 2 b.toNat
    have hcons : byteDigits (b :: bytes) = Numeral.padded 16 2 b.toNat ++ byteDigits bytes := rfl
    rw [htwo] at hread
    rw [hcons, htwo, List.cons_append, List.cons_append, List.nil_append, bytesOf, hread, ih,
      UInt8.ofNat_toNat]

/-- The bytes that a line shows can be read from it. -/
theorem Shows.bytesOf_column {address : Nat} {bytes : List UInt8} {line : String}
    (h : Shows address bytes line) (hne : bytes ≠ []) : bytesOf (column line.toList) = bytes := by
  obtain ⟨text, hline⟩ := h
  have hdigits : byteDigits bytes ≠ [] := by
    intro hnil
    have hbytes := bytesOf_byteDigits bytes
    rw [hnil] at hbytes
    exact hne hbytes.symm
  rw [hline, column_append (blank_notMem_padded (by decide) _) (blank_notMem_byteDigits bytes)
    hdigits, bytesOf_byteDigits]

/-- The lines show the whole image, wherever it is said to begin. -/
theorem imageOf_linesFrom (address : Nat) (image : List UInt8) :
    imageOf (linesFrom address image) = image := by
  fun_induction linesFrom address image with
  | case1 address hi lo rest ih =>
    have hline := (shows_wordLine address hi lo).bytesOf_column (by simp)
    rw [imageOf, List.flatMap_cons, hline, ← imageOf, ih]
    rfl
  | case2 address b =>
    have hline := (shows_byteLine address b).bytesOf_column (by simp)
    rw [imageOf, List.flatMap_cons, hline]
    rfl
  | case3 => rfl

/-- A listing loses nothing. It has a line for each two bytes, which begins with the address of the
first one, and the bytes can be read back from the lines. So two images with the same listing are
the same. -/
theorem lines_lossless (image : List UInt8) :
    (lines image).length = (image.length + 1) / 2 ∧
    (∀ k line, (lines image)[k]? = some line → ∃ address rest,
      line.toList = address ++ ' ' :: ' ' :: rest ∧ Numeral.IsHex 3 (0x200 + 2 * k) address) ∧
    imageOf (lines image) = image ∧
    ∀ other, lines other = lines image → other = image := by
  refine ⟨length_linesFrom _ _, ?_, imageOf_linesFrom _ _, ?_⟩
  · intro k line hline
    obtain ⟨bytes, text, htext⟩ := exists_shows_of_getElem? hline
    exact ⟨_, _, htext, Numeral.isHex_padded (by decide) _⟩
  · intro other hother
    have hread := congrArg imageOf hother
    rwa [lines, imageOf_linesFrom, lines, imageOf_linesFrom] at hread

/-- A last odd byte that happens to be zero is not lost either. -/
theorem lines_lossless_oddTail :
    let short := ["200  00E0  CLS"]
    let long := ["200  00E0  CLS", "202  00    DB 0x00"]
    lines [0x00, 0xE0] = short ∧ lines [0x00, 0xE0, 0x00] = long ∧
      imageOf short = [0x00, 0xE0] ∧ imageOf long = [0x00, 0xE0, 0x00] ∧
      ∃ address rest, "202  00    DB 0x00".toList = address ++ ' ' :: ' ' :: rest ∧
        Numeral.IsHex 3 0x202 address := by
  intro short long
  have hshort : lines [0x00, 0xE0] = short := by decide +kernel
  have hlong : lines [0x00, 0xE0, 0x00] = long := by decide +kernel
  obtain ⟨-, -, himage, -⟩ := lines_lossless [0x00, 0xE0]
  obtain ⟨-, hbegins, himage', -⟩ := lines_lossless [0x00, 0xE0, 0x00]
  rw [hshort] at himage
  rw [hlong] at himage' hbegins
  exact ⟨hshort, hlong, himage, himage', hbegins 1 _ rfl⟩

end Chip8.Listing
