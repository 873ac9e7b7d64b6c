import TapeMachine.Encoding
import TapeMachine.Proofs.Encoding.Utf8

/-!
# Writing text and reading it back

A writer beside the reader of every encoding. ASCII and Latin-1 cannot write every text, so a writer
gives bytes or nothing. What an encoding writes, it reads back (`Encoding.decode_of_encode?`).
-/

namespace TapeMachine

namespace Encoding

/-! ### UTF-16 -/

namespace Utf16

/-- The bytes of a 16-bit unit, the low one first. -/
def unitBytes (u : Nat) : List UInt8 :=
  [UInt8.ofNat (u % 256), UInt8.ofNat (u / 256)]

/-- The bytes of a character: those of its code, or, where that does not fit into a unit, those of a
pair of surrogates. -/
def encodeChar (c : Char) : List UInt8 :=
  if c.toNat < 0x10000 then unitBytes c.toNat
  else
    unitBytes (0xD800 + (c.toNat - 0x10000) / 0x400) ++
      unitBytes (0xDC00 + (c.toNat - 0x10000) % 0x400)

section units

variable {u v : Nat}

theorem unit_unitBytes (h : u < 0x10000) :
    unit (UInt8.ofNat (u % 256)) (UInt8.ofNat (u / 256)) = u := by
  rw [unit, toNat_ofNat_of_lt (by omega), toNat_ofNat_of_lt (by omega)]
  omega

/-- A unit that is no surrogate is a character. -/
theorem decodeFrom_unit (h : u < 0xD800 ∨ 0xE000 ≤ u ∧ u < 0x10000) (read : Array Char)
    (rest : List UInt8) :
    decodeFrom read (unitBytes u ++ rest) = decodeFrom (read.push (Char.ofNat u)) rest := by
  have hunit := unit_unitBytes (show u < 0x10000 by omega)
  have hhigh : isHighSurrogate u = false := by
    simp only [isHighSurrogate, Bool.and_eq_false_iff, decide_eq_false_iff_not]
    omega
  have hlow : isLowSurrogate u = false := by
    simp only [isLowSurrogate, Bool.and_eq_false_iff, decide_eq_false_iff_not]
    omega
  obtain _ | ⟨c, _ | ⟨d, rest⟩⟩ := rest
  · simp [unitBytes, decodeFrom, hunit, hhigh, hlow]
  · simp [unitBytes, decodeFrom, hunit, hhigh, hlow]
  · simp [unitBytes, decodeFrom, hunit, hhigh, hlow]

/-- Two units that are a pair of surrogates are a character. -/
theorem decodeFrom_pair (hu : 0xD800 ≤ u ∧ u < 0xDC00) (hv : 0xDC00 ≤ v ∧ v < 0xE000)
    (read : Array Char) (rest : List UInt8) :
    decodeFrom read (unitBytes u ++ unitBytes v ++ rest) =
      decodeFrom (read.push (Char.ofNat (0x10000 + (u - 0xD800) * 0x400 + (v - 0xDC00)))) rest := by
  have hunit := unit_unitBytes (show u < 0x10000 by omega)
  have hunit' := unit_unitBytes (show v < 0x10000 by omega)
  have hhigh : isHighSurrogate u = true := by simp [isHighSurrogate, hu]
  have hlow : isLowSurrogate v = true := by simp [isLowSurrogate, hv]
  simp [unitBytes, decodeFrom, hunit, hunit', hhigh, hlow]

end units

/-- The bytes of a character are read, and then it has been read. -/
theorem decodeFrom_encodeChar (read : Array Char) (c : Char) (rest : List UInt8) :
    decodeFrom read (encodeChar c ++ rest) = decodeFrom (read.push c) rest := by
  have hvalid : c.toNat < 0xD800 ∨ 0xDFFF < c.toNat ∧ c.toNat < 0x110000 := c.valid
  unfold encodeChar
  split
  · rw [decodeFrom_unit (by omega), Char.ofNat_toNat]
  · rw [decodeFrom_pair (by omega) (by omega)]
    have hcode : 0x10000 + (0xD800 + (c.toNat - 0x10000) / 0x400 - 0xD800) * 0x400 +
        (0xDC00 + (c.toNat - 0x10000) % 0x400 - 0xDC00) = c.toNat := by omega
    rw [hcode, Char.ofNat_toNat]

theorem decode_flatMap (text : List Char) : decode (text.flatMap encodeChar) = .ok text := by
  have hread (read : Array Char) :
      decodeFrom read (text.flatMap encodeChar) = .ok (read ++ text.toArray) := by
    induction text generalizing read with
    | nil => simp [decodeFrom]
    | cons c text ih =>
        rw [List.flatMap_cons, decodeFrom_encodeChar, ih]
        simp
  simp [decode, hread, Except.map]

end Utf16

/-! ### Codes that fit into a byte -/

/-- The codes of the characters as bytes, if all of them are below a bound. -/
def bytesBelow? (bound : Nat) (text : List Char) : Option (List UInt8) :=
  if text.all fun c => c.toNat < bound then some (text.map fun c => UInt8.ofNat c.toNat) else none

theorem bytesBelow?_eq_some_iff {bound : Nat} {text : List Char} {bytes : List UInt8} :
    bytesBelow? bound text = some bytes ↔
      (∀ c ∈ text, c.toNat < bound) ∧ bytes = text.map fun c => UInt8.ofNat c.toNat := by
  rw [bytesBelow?, Option.ite_none_right_eq_some, List.all_eq_true, Option.some.injEq]
  simp only [decide_eq_true_eq]
  exact and_congr_right fun _ => eq_comm

theorem decodeAsciiFrom_map (read : Array Char) {text : List Char}
    (h : ∀ c ∈ text, c.toNat < 0x80) :
    decodeAsciiFrom read (text.map fun c => UInt8.ofNat c.toNat) = .ok (read ++ text.toArray) := by
  induction text generalizing read with
  | nil => simp [decodeAsciiFrom]
  | cons c text ih =>
      obtain ⟨hc, htext⟩ := List.forall_mem_cons.mp h
      have hbyte : (UInt8.ofNat c.toNat).toNat = c.toNat := toNat_ofNat_of_lt (by omega)
      simp only [List.map_cons, decodeAsciiFrom, hbyte, if_pos hc, Char.ofNat_toNat]
      rw [ih _ htext]
      simp

/-! ### All encodings -/

/-- The bytes that a text is written as, if the encoding has all its characters. -/
def encode? : Encoding → List Char → Option (List UInt8)
  | .utf8, text => some (text.flatMap String.utf8EncodeChar)
  | .utf8Marked, text => some (Utf8.mark ++ text.flatMap String.utf8EncodeChar)
  | .ascii, text => bytesBelow? 0x80 text
  | .latin1, text => bytesBelow? 0x100 text
  | .utf16le, text => some (text.flatMap Utf16.encodeChar)

/-- A mark is dropped once, whatever text comes after it. -/
theorem Utf8.decodeMarked_append (bytes : List UInt8) :
    decodeMarked (mark ++ bytes) = decode bytes := by
  cases bytes with
  | nil => rfl
  | cons byte rest => simp [decodeMarked, mark]

/-- **What an encoding writes, it reads back.** -/
theorem decode_of_encode? {e : Encoding} {text : List Char} {bytes : List UInt8}
    (h : e.encode? text = some bytes) : e.decode bytes = .ok text := by
  cases e with
  | utf8 =>
      cases h
      exact Utf8.decode_flatMap text
  | utf8Marked =>
      cases h
      exact (Utf8.decodeMarked_append _).trans (Utf8.decode_flatMap text)
  | ascii =>
      obtain ⟨hbound, rfl⟩ := bytesBelow?_eq_some_iff.mp h
      simp [decode, decodeAsciiFrom_map _ hbound, Except.map]
  | latin1 =>
      obtain ⟨hbound, rfl⟩ := bytesBelow?_eq_some_iff.mp h
      have hchar : ∀ c ∈ text, Char.ofNat (UInt8.ofNat c.toNat).toNat = c := by
        intro c hc
        rw [toNat_ofNat_of_lt (hbound c hc), Char.ofNat_toNat]
      simp only [decode, List.map_map, Function.comp_def, List.map_congr_left hchar, List.map_id']
  | utf16le =>
      cases h
      exact Utf16.decode_flatMap text

end Encoding

end TapeMachine
