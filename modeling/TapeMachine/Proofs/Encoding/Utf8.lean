import Mathlib.Tactic.SplitIfs
import TapeMachine.Encoding.Utf8

/-!
# The UTF-8 reader is exact

The reader accepts the bytes of a text and nothing else: `Utf8.decode bytes` is a text exactly if
the bytes are those that the standard library's `String.utf8EncodeChar` gives for the characters of
that text, one after another (`Utf8.decode_eq_ok_iff`).

The reader's own account of a character is a first byte and the bytes that it asks for
(`Utf8.ReadsAs`). That this account singles out the bytes of one character is arithmetic
(`Utf8.readsAs_iff`); that the reader goes by it, from one character to the next, is
`Utf8.decodeFrom_cons_eq_ok_iff`.
-/

namespace TapeMachine

namespace Encoding

/-! ### Codes and bytes as numbers -/

theorem toNat_val_ofNat {code : Nat} (h : code.isValidChar) :
    (Char.ofNat code).val.toNat = code := by
  rw [Char.ofNat, dif_pos h]
  rfl

theorem ofNat_eq {n : Nat} {byte : UInt8} (h : n = byte.toNat) : UInt8.ofNat n = byte := by
  rw [h, UInt8.ofNat_toNat]

theorem toNat_ofNat_of_lt {n : Nat} (h : n < 256) : (UInt8.ofNat n).toNat = n :=
  UInt8.toNat_ofNat_of_lt' h

namespace Utf8

/-! ### What the reader takes for a character -/

/-- The bytes are the `count` ones that are to come, the first of them between the bounds. -/
def Completes : (count low high : Nat) → List UInt8 → Prop
  | 0, _, _, tail => tail = []
  | _ + 1, _, _, [] => False
  | count + 1, low, high, byte :: tail =>
    (low ≤ byte.toNat ∧ byte.toNat ≤ high) ∧ Completes count 0x80 0xBF tail

/-- What has been gathered of a code after one more byte. -/
def extend (code : Nat) (byte : UInt8) : Nat :=
  64 * code + (byte.toNat - 0x80)

/-- The code of a character, from what has been gathered of it and the bytes that are to come. -/
def gather (code : Nat) (tail : List UInt8) : Nat :=
  tail.foldl extend code

theorem gather_cons (code : Nat) (byte : UInt8) (tail : List UInt8) :
    gather code (byte :: tail) = gather (extend code byte) tail :=
  List.foldl_cons ..

/-- The first byte asks for the other ones, and together they have the code of the character. -/
def ReadsAs (c : Char) (lead : UInt8) (tail : List UInt8) : Prop :=
  ∃ count low high, follow? lead.toNat = some (count, low, high) ∧ Completes count low high tail ∧
    c = Char.ofNat (gather (leadBits lead.toNat count) tail)

section widths

variable {c : Char} {lead : UInt8} {tail : List UInt8} {count low high : Nat}

theorem completes_succ : Completes (count + 1) low high tail ↔ ∃ byte rest, tail = byte :: rest ∧
    (low ≤ byte.toNat ∧ byte.toNat ≤ high) ∧ Completes count 0x80 0xBF rest := by
  cases tail with
  | nil => simp [Completes]
  | cons byte rest =>
      refine ⟨fun h => ⟨byte, rest, rfl, h⟩, ?_⟩
      rintro ⟨_, _, heq, h⟩
      obtain ⟨rfl, rfl⟩ := List.cons.inj heq
      exact h

theorem readsAs_iff_of_follow? (h : follow? lead.toNat = some (count, low, high)) :
    ReadsAs c lead tail ↔
      Completes count low high tail ∧ c = Char.ofNat (gather (leadBits lead.toNat count) tail) := by
  refine ⟨?_, fun hreads => ⟨count, low, high, h, hreads⟩⟩
  rintro ⟨_, _, _, h', hreads⟩
  cases h.symm.trans h'
  exact hreads

theorem readsAs_one (h : lead.toNat < 0x80) :
    ReadsAs c lead tail ↔ tail = [] ∧ c = Char.ofNat lead.toNat := by
  have hfollow : follow? lead.toNat = some (0, 0x80, 0xBF) := if_pos h
  rw [readsAs_iff_of_follow? hfollow, Completes]
  exact and_congr_right (by rintro rfl; rfl)

theorem readsAs_two (h : 0xC2 ≤ lead.toNat ∧ lead.toNat < 0xE0) :
    ReadsAs c lead tail ↔ ∃ a, tail = [a] ∧ (0x80 ≤ a.toNat ∧ a.toNat ≤ 0xBF) ∧
      c = Char.ofNat (64 * (lead.toNat - 0xC0) + (a.toNat - 0x80)) := by
  have hfollow : follow? lead.toNat = some (1, 0x80, 0xBF) := by
    rw [follow?, if_neg (by omega), if_neg (by omega), if_pos h.2]
  have hcode (a : UInt8) : gather (leadBits lead.toNat 1) [a] =
    64 * (lead.toNat - 0xC0) + (a.toNat - 0x80) := rfl
  rw [readsAs_iff_of_follow? hfollow]
  refine ⟨?_, ?_⟩
  · rintro ⟨htail, hc⟩
    obtain ⟨a, _, rfl, ha, rfl⟩ := completes_succ.mp htail
    exact ⟨a, rfl, ha, hcode a ▸ hc⟩
  · rintro ⟨a, rfl, ha, hc⟩
    exact ⟨⟨ha, rfl⟩, (hcode a).symm ▸ hc⟩

theorem readsAs_three (h : 0xE0 ≤ lead.toNat ∧ lead.toNat < 0xF0) :
    ReadsAs c lead tail ↔ ∃ a b, tail = [a, b] ∧
      (0x80 ≤ a.toNat ∧ a.toNat ≤ 0xBF) ∧ (0x80 ≤ b.toNat ∧ b.toNat ≤ 0xBF) ∧
      (lead.toNat = 0xE0 → 0xA0 ≤ a.toNat) ∧ (lead.toNat = 0xED → a.toNat ≤ 0x9F) ∧
      c = Char.ofNat (64 * (64 * (lead.toNat - 0xE0) + (a.toNat - 0x80)) + (b.toNat - 0x80)) := by
  have hfollow : follow? lead.toNat = some (2, if lead.toNat = 0xE0 then 0xA0 else 0x80,
      if lead.toNat = 0xED then 0x9F else 0xBF) := by
    rw [follow?, if_neg (by omega), if_neg (by omega), if_neg (by omega)]
    by_cases hE0 : lead.toNat = 0xE0
    · rw [if_pos hE0, if_pos hE0, if_neg (by omega)]
    · rw [if_neg hE0, if_neg hE0]
      by_cases hED : lead.toNat = 0xED
      · rw [if_pos hED, if_pos hED]
      · rw [if_neg hED, if_neg hED, if_pos h.2]
  have hcode (a b : UInt8) : gather (leadBits lead.toNat 2) [a, b] =
    64 * (64 * (lead.toNat - 0xE0) + (a.toNat - 0x80)) + (b.toNat - 0x80) := rfl
  rw [readsAs_iff_of_follow? hfollow]
  refine ⟨?_, ?_⟩
  · rintro ⟨htail, hc⟩
    obtain ⟨a, _, rfl, ha, htail⟩ := completes_succ.mp htail
    obtain ⟨b, _, rfl, hb, rfl⟩ := completes_succ.mp htail
    refine ⟨a, b, rfl, ?_, hb, ?_, ?_, hcode a b ▸ hc⟩ <;> split_ifs at ha <;> omega
  · rintro ⟨a, b, rfl, ha, hb, hE0, hED, hc⟩
    refine ⟨⟨?_, hb, rfl⟩, (hcode a b).symm ▸ hc⟩
    split_ifs <;> omega

theorem readsAs_four (h : 0xF0 ≤ lead.toNat ∧ lead.toNat < 0xF5) :
    ReadsAs c lead tail ↔ ∃ a b d, tail = [a, b, d] ∧ (0x80 ≤ a.toNat ∧ a.toNat ≤ 0xBF) ∧
      (0x80 ≤ b.toNat ∧ b.toNat ≤ 0xBF) ∧ (0x80 ≤ d.toNat ∧ d.toNat ≤ 0xBF) ∧
      (lead.toNat = 0xF0 → 0x90 ≤ a.toNat) ∧ (lead.toNat = 0xF4 → a.toNat ≤ 0x8F) ∧
      c = Char.ofNat (64 * (64 * (64 * (lead.toNat - 0xF0) + (a.toNat - 0x80)) +
        (b.toNat - 0x80)) + (d.toNat - 0x80)) := by
  have hfollow : follow? lead.toNat = some (3, if lead.toNat = 0xF0 then 0x90 else 0x80,
      if lead.toNat = 0xF4 then 0x8F else 0xBF) := by
    rw [follow?, if_neg (by omega), if_neg (by omega), if_neg (by omega), if_neg (by omega),
      if_neg (by omega), if_neg (by omega)]
    by_cases hF0 : lead.toNat = 0xF0
    · rw [if_pos hF0, if_pos hF0, if_neg (by omega)]
    · rw [if_neg hF0, if_neg hF0]
      by_cases hF4 : lead.toNat = 0xF4
      · rw [if_neg (by omega), if_pos hF4, if_pos hF4]
      · rw [if_pos (by omega), if_neg hF4]
  have hcode (a b d : UInt8) : gather (leadBits lead.toNat 3) [a, b, d] =
    64 * (64 * (64 * (lead.toNat - 0xF0) + (a.toNat - 0x80)) + (b.toNat - 0x80)) +
      (d.toNat - 0x80) := rfl
  rw [readsAs_iff_of_follow? hfollow]
  refine ⟨?_, ?_⟩
  · rintro ⟨htail, hc⟩
    obtain ⟨a, _, rfl, ha, htail⟩ := completes_succ.mp htail
    obtain ⟨b, _, rfl, hb, htail⟩ := completes_succ.mp htail
    obtain ⟨d, _, rfl, hd, rfl⟩ := completes_succ.mp htail
    refine ⟨a, b, d, rfl, ?_, hb, hd, ?_, ?_, hcode a b d ▸ hc⟩ <;> split_ifs at ha <;> omega
  · rintro ⟨a, b, d, rfl, ha, hb, hd, hF0, hF4, hc⟩
    refine ⟨⟨?_, hb, hd, rfl⟩, (hcode a b d).symm ▸ hc⟩
    split_ifs <;> omega

/-- The other bytes start no character. -/
theorem not_readsAs (h : 0x80 ≤ lead.toNat ∧ lead.toNat < 0xC2 ∨ 0xF5 ≤ lead.toNat) :
    ¬ ReadsAs c lead tail := by
  have hfollow : follow? lead.toNat = none := by
    obtain h | h := h
    · rw [follow?, if_neg (by omega), if_pos h.2]
    · rw [follow?, if_neg (by omega), if_neg (by omega), if_neg (by omega), if_neg (by omega),
        if_neg (by omega), if_neg (by omega), if_neg (by omega), if_neg (by omega),
        if_neg (by omega)]
  rintro ⟨_, _, _, hsome, -⟩
  cases hfollow.symm.trans hsome

end widths

/-! ### The bytes of a character -/

section bytes

variable {c : Char} {lead a b d : UInt8} {tail : List UInt8}

theorem utf8EncodeChar_one (hcode : c.val.toNat = lead.toNat) (hlead : lead.toNat < 0x80) :
    String.utf8EncodeChar c = [lead] := by
  simp only [String.utf8EncodeChar]
  rw [if_pos (by omega), ofNat_eq hcode]

theorem utf8EncodeChar_two
    (hcode : c.val.toNat = 64 * (lead.toNat - 0xC0) + (a.toNat - 0x80))
    (hlead : 0xC2 ≤ lead.toNat ∧ lead.toNat < 0xE0) (ha : 0x80 ≤ a.toNat ∧ a.toNat ≤ 0xBF) :
    String.utf8EncodeChar c = [lead, a] := by
  simp only [String.utf8EncodeChar]
  rw [if_neg (by omega), if_pos (by omega)]
  simp only [List.cons.injEq, and_true]
  exact ⟨ofNat_eq (by omega), ofNat_eq (by omega)⟩

theorem utf8EncodeChar_three
    (hcode : c.val.toNat =
      64 * (64 * (lead.toNat - 0xE0) + (a.toNat - 0x80)) + (b.toNat - 0x80))
    (hlead : 0xE0 ≤ lead.toNat ∧ lead.toNat < 0xF0) (ha : 0x80 ≤ a.toNat ∧ a.toNat ≤ 0xBF)
    (hb : 0x80 ≤ b.toNat ∧ b.toNat ≤ 0xBF) (hlong : 0x7FF < c.val.toNat) :
    String.utf8EncodeChar c = [lead, a, b] := by
  simp only [String.utf8EncodeChar]
  rw [if_neg (by omega), if_neg (by omega), if_pos (by omega)]
  simp only [List.cons.injEq, and_true]
  exact ⟨ofNat_eq (by omega), ofNat_eq (by omega), ofNat_eq (by omega)⟩

theorem utf8EncodeChar_four
    (hcode : c.val.toNat =
      64 * (64 * (64 * (lead.toNat - 0xF0) + (a.toNat - 0x80)) + (b.toNat - 0x80)) +
        (d.toNat - 0x80))
    (hlead : 0xF0 ≤ lead.toNat ∧ lead.toNat < 0xF5) (ha : 0x80 ≤ a.toNat ∧ a.toNat ≤ 0xBF)
    (hb : 0x80 ≤ b.toNat ∧ b.toNat ≤ 0xBF) (hd : 0x80 ≤ d.toNat ∧ d.toNat ≤ 0xBF)
    (hlong : 0xFFFF < c.val.toNat) : String.utf8EncodeChar c = [lead, a, b, d] := by
  simp only [String.utf8EncodeChar]
  rw [if_neg (by omega), if_neg (by omega), if_neg (by omega)]
  simp only [List.cons.injEq, and_true]
  exact ⟨ofNat_eq (by omega), ofNat_eq (by omega), ofNat_eq (by omega), ofNat_eq (by omega)⟩

/-- What the reader takes for a character are the bytes of that character. -/
theorem ReadsAs.utf8EncodeChar_eq (h : ReadsAs c lead tail) :
    String.utf8EncodeChar c = lead :: tail := by
  have hranges : lead.toNat < 0x80 ∨ (0xC2 ≤ lead.toNat ∧ lead.toNat < 0xE0) ∨
      (0xE0 ≤ lead.toNat ∧ lead.toNat < 0xF0) ∨ (0xF0 ≤ lead.toNat ∧ lead.toNat < 0xF5) ∨
      (0x80 ≤ lead.toNat ∧ lead.toNat < 0xC2 ∨ 0xF5 ≤ lead.toNat) := by omega
  obtain hlead | hlead | hlead | hlead | hlead := hranges
  · obtain ⟨rfl, rfl⟩ := (readsAs_one hlead).mp h
    exact utf8EncodeChar_one (toNat_val_ofNat (.inl (by omega))) hlead
  · obtain ⟨a, rfl, ha, hc⟩ := (readsAs_two hlead).mp h
    generalize hcode : 64 * (lead.toNat - 0xC0) + (a.toNat - 0x80) = code at hc
    subst hc
    have hval := toNat_val_ofNat (show code.isValidChar from .inl (by omega))
    exact utf8EncodeChar_two (hval.trans hcode.symm) hlead ha
  · obtain ⟨a, b, rfl, ha, hb, hE0, hED, hc⟩ := (readsAs_three hlead).mp h
    -- Neither an overlong form nor a surrogate.
    generalize hcode :
      64 * (64 * (lead.toNat - 0xE0) + (a.toNat - 0x80)) + (b.toNat - 0x80) = code at hc
    subst hc
    have hval := toNat_val_ofNat (show code.isValidChar by unfold Nat.isValidChar; omega)
    exact utf8EncodeChar_three (hval.trans hcode.symm) hlead ha hb (by omega)
  · obtain ⟨a, b, d, rfl, ha, hb, hd, hF0, hF4, hc⟩ := (readsAs_four hlead).mp h
    -- Neither an overlong form nor beyond the last code.
    generalize hcode : 64 * (64 * (64 * (lead.toNat - 0xF0) + (a.toNat - 0x80)) +
      (b.toNat - 0x80)) + (d.toNat - 0x80) = code at hc
    subst hc
    have hval := toNat_val_ofNat (show code.isValidChar by unfold Nat.isValidChar; omega)
    exact utf8EncodeChar_four (hval.trans hcode.symm) hlead ha hb hd (by omega)
  · exact absurd h (not_readsAs hlead)

/-- The reader takes the bytes of a character for that character. -/
theorem readsAs_of_utf8EncodeChar_eq (h : String.utf8EncodeChar c = lead :: tail) :
    ReadsAs c lead tail := by
  have hvalid : c.val.toNat < 0xD800 ∨ 0xDFFF < c.val.toNat ∧ c.val.toNat < 0x110000 := c.valid
  have hchar : ∀ {code}, code = c.val.toNat → c = Char.ofNat code := by
    rintro _ rfl
    exact (Char.ofNat_toNat c).symm
  simp only [String.utf8EncodeChar] at h
  generalize c.val.toNat = v at h hvalid hchar
  split_ifs at h with hone htwo hthree
  · obtain ⟨rfl, rfl⟩ := List.cons.inj h
    have hlead := toNat_ofNat_of_lt (show v < 256 by omega)
    exact (readsAs_one (by omega)).mpr ⟨rfl, hchar hlead⟩
  · obtain ⟨rfl, rfl⟩ := List.cons.inj h
    have hlead := toNat_ofNat_of_lt (show v / 64 % 32 + 192 < 256 by omega)
    have ha := toNat_ofNat_of_lt (show v % 64 + 128 < 256 by omega)
    exact (readsAs_two (by omega)).mpr ⟨_, rfl, by omega, hchar (by omega)⟩
  · obtain ⟨rfl, rfl⟩ := List.cons.inj h
    have hlead := toNat_ofNat_of_lt (show v / 4096 % 16 + 224 < 256 by omega)
    have ha := toNat_ofNat_of_lt (show v / 64 % 64 + 128 < 256 by omega)
    have hb := toNat_ofNat_of_lt (show v % 64 + 128 < 256 by omega)
    exact (readsAs_three (by omega)).mpr
      ⟨_, _, rfl, by omega, by omega, by omega, by omega, hchar (by omega)⟩
  · obtain ⟨rfl, rfl⟩ := List.cons.inj h
    have hlead := toNat_ofNat_of_lt (show v / 262144 % 8 + 240 < 256 by omega)
    have ha := toNat_ofNat_of_lt (show v / 4096 % 64 + 128 < 256 by omega)
    have hb := toNat_ofNat_of_lt (show v / 64 % 64 + 128 < 256 by omega)
    have hd := toNat_ofNat_of_lt (show v % 64 + 128 < 256 by omega)
    exact (readsAs_four (by omega)).mpr
      ⟨_, _, _, rfl, by omega, by omega, by omega, by omega, by omega, hchar (by omega)⟩

end bytes

/-- **The reader knows a character by its bytes and by no others.** -/
theorem readsAs_iff {c : Char} {lead : UInt8} {tail : List UInt8} :
    ReadsAs c lead tail ↔ String.utf8EncodeChar c = lead :: tail :=
  ⟨ReadsAs.utf8EncodeChar_eq, readsAs_of_utf8EncodeChar_eq⟩

/-! ### From one character to the next -/

section reader

variable {read text : Array Char} {code count low high : Nat} {bytes tail rest : List UInt8}

/-- Between characters, what was last gathered and the bounds for a next byte do not matter. -/
theorem decodeFrom_zero (read : Array Char) (code low high : Nat) (bytes : List UInt8) :
    decodeFrom read code 0 low high bytes = decodeFrom read 0 0 0x80 0xBF bytes := by
  induction bytes generalizing read code low high with
  | nil => rfl
  | cons byte rest ih =>
      simp only [decodeFrom]
      split
      · rfl
      · rw [ih _ 0 low high]
      · rfl

/-- The bytes that complete a character are read, and then it has been read. -/
theorem decodeFrom_append (h : Completes (count + 1) low high tail) :
    decodeFrom read code (count + 1) low high (tail ++ rest) =
      decodeFrom (read.push (Char.ofNat (gather code tail))) 0 0 0x80 0xBF rest := by
  induction count generalizing code low high tail with
  | zero =>
      obtain ⟨byte, _, rfl, hbyte, rfl⟩ := completes_succ.mp h
      simp only [decodeFrom, List.cons_append, List.nil_append, if_pos hbyte, if_true]
      exact decodeFrom_zero _ _ _ _ _
  | succ count ih =>
      obtain ⟨byte, _, rfl, hbyte, hmore⟩ := completes_succ.mp h
      simp only [decodeFrom, List.cons_append, if_pos hbyte, Nat.succ_ne_zero, if_false]
      rw [gather_cons, ← ih hmore]
      rfl

/-- Inside a character, only the bytes that complete it can come next. -/
theorem exists_completes_of_decodeFrom_eq_ok
    (h : decodeFrom read code (count + 1) low high bytes = .ok text) :
    ∃ tail rest, bytes = tail ++ rest ∧ Completes (count + 1) low high tail := by
  induction bytes generalizing code count low high with
  | nil => simp [decodeFrom] at h
  | cons byte more ih =>
      simp only [decodeFrom] at h
      split_ifs at h with hbyte hlast
      · subst hlast
        exact ⟨[byte], more, rfl, hbyte, rfl⟩
      · obtain ⟨count, rfl⟩ := Nat.exists_eq_succ_of_ne_zero hlast
        obtain ⟨tail, rest, rfl, htail⟩ := ih h
        exact ⟨byte :: tail, rest, rfl, hbyte, htail⟩

/-- **The reader goes from one character to the next.** It accepts bytes exactly if a character is
to be read first and it accepts what comes after that. -/
theorem decodeFrom_cons_eq_ok_iff {lead : UInt8} :
    decodeFrom read 0 0 0x80 0xBF (lead :: bytes) = .ok text ↔
      ∃ c tail rest, bytes = tail ++ rest ∧ ReadsAs c lead tail ∧
        decodeFrom (read.push c) 0 0 0x80 0xBF rest = .ok text := by
  rcases hfollow : follow? lead.toNat with _ | ⟨_ | count, low, high⟩
  · -- The byte starts no character.
    simp [decodeFrom, ReadsAs, hfollow]
  · -- The byte is a character.
    simp only [decodeFrom, hfollow, readsAs_iff_of_follow? hfollow]
    refine ⟨fun h => ⟨_, [], bytes, rfl, ⟨rfl, rfl⟩, h⟩, ?_⟩
    rintro ⟨c, tail, rest, rfl, ⟨rfl, rfl⟩, h⟩
    exact h
  · -- The byte asks for more.
    simp only [decodeFrom, hfollow, readsAs_iff_of_follow? hfollow]
    refine ⟨?_, ?_⟩
    · intro h
      obtain ⟨tail, rest, rfl, htail⟩ := exists_completes_of_decodeFrom_eq_ok h
      rw [decodeFrom_append htail] at h
      exact ⟨_, tail, rest, rfl, ⟨htail, rfl⟩, h⟩
    · rintro ⟨c, tail, rest, rfl, ⟨htail, rfl⟩, h⟩
      rw [decodeFrom_append htail]
      exact h

/-- The bytes of a text are read, and then the text has been read. -/
theorem decodeFrom_flatMap (read : Array Char) (chars : List Char) :
    decodeFrom read 0 0 0x80 0xBF (chars.flatMap String.utf8EncodeChar) =
      .ok (read ++ chars.toArray) := by
  induction chars generalizing read with
  | nil => simp [decodeFrom]
  | cons c chars ih =>
      obtain ⟨lead, tail, hbytes⟩ :=
        List.exists_cons_of_ne_nil (String.utf8EncodeChar_ne_nil (c := c))
      rw [List.flatMap_cons, hbytes, List.cons_append]
      refine decodeFrom_cons_eq_ok_iff.mpr ⟨c, tail, _, rfl, readsAs_iff.mpr hbytes, ?_⟩
      rw [ih]
      simp

/-- Only the bytes of a text are read. -/
theorem exists_flatMap_of_decodeFrom_eq_ok (h : decodeFrom read 0 0 0x80 0xBF bytes = .ok text) :
    ∃ chars : List Char, bytes = chars.flatMap String.utf8EncodeChar := by
  -- By the number of bytes, since a character may take several.
  induction hlength : bytes.length using Nat.strongRecOn generalizing read bytes with
  | ind length ih =>
      cases bytes with
      | nil => exact ⟨[], rfl⟩
      | cons lead bytes =>
          obtain ⟨c, tail, rest, rfl, hreads, hrest⟩ := decodeFrom_cons_eq_ok_iff.mp h
          have hshorter : rest.length < length := by
            rw [← hlength, List.length_cons, List.length_append]
            omega
          obtain ⟨chars, rfl⟩ := ih _ hshorter hrest rfl
          refine ⟨c :: chars, ?_⟩
          rw [List.flatMap_cons, readsAs_iff.mp hreads, List.cons_append]

end reader

theorem decode_flatMap (text : List Char) :
    decode (text.flatMap String.utf8EncodeChar) = .ok text := by
  simp [decode, decodeFrom_flatMap, Except.map]

/-- **The reader is exact.** It reads a text from the bytes of that text and from no others. -/
theorem decode_eq_ok_iff {bytes : List UInt8} {text : List Char} :
    decode bytes = .ok text ↔ bytes = text.flatMap String.utf8EncodeChar := by
  refine ⟨?_, ?_⟩
  · intro h
    obtain ⟨chars, hchars⟩ : ∃ chars : List Char, bytes = chars.flatMap String.utf8EncodeChar := by
      cases hread : decodeFrom #[] 0 0 0x80 0xBF bytes with
      | error flaw => simp [decode, hread, Except.map] at h
      | ok read => exact exists_flatMap_of_decodeFrom_eq_ok hread
    rw [hchars, decode_flatMap] at h
    cases h
    exact hchars
  · rintro rfl
    exact decode_flatMap text

end Utf8

end Encoding

end TapeMachine
