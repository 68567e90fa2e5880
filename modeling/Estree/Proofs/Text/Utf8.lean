import Estree.Text.Utf8
import Mathlib.Data.List.Forall2

/-!
Bytes that are text.

A first byte and the bytes that it owes are a sequence, and what characters are encoded as
are the sequences, `encode_of_form` and `exists_form`.  So bytes are decoded exactly if they
are the encoding of a text, `decode_eq_ok_iff`.
-/

namespace Estree

namespace Text

namespace Utf8

/-! ### Sequences -/

/-- A byte that lies in a range. -/
def Within (b : UInt8) (range : UInt8 × UInt8) : Prop := range.1 ≤ b ∧ b ≤ range.2

/-- A first byte and all that it owes. -/
def Sequence (b : UInt8) (bs : List UInt8) : Prop :=
  ∃ owed, tails? b = some owed ∧ List.Forall₂ Within bs owed

/-- A byte that goes on with a character. -/
def Continues (b : UInt8) : Prop := 0x80 ≤ b.toNat ∧ b.toNat ≤ 0xBF

/-- The forms of a sequence. -/
inductive Form (b : UInt8) : List UInt8 → Prop
  | one (h : b.toNat < 0x80) : Form b []
  | two {x : UInt8} (hb : 0xC2 ≤ b.toNat ∧ b.toNat < 0xE0) (hx : Continues x) : Form b [x]
  | three {x y : UInt8} (hb : 0xE0 ≤ b.toNat ∧ b.toNat < 0xF0) (hx : Continues x)
    (hlong : b.toNat = 0xE0 → 0xA0 ≤ x.toNat) (hsurrogate : b.toNat = 0xED → x.toNat ≤ 0x9F)
    (hy : Continues y) : Form b [x, y]
  | four {x y z : UInt8} (hb : 0xF0 ≤ b.toNat ∧ b.toNat ≤ 0xF4) (hx : Continues x)
    (hlong : b.toNat = 0xF0 → 0x90 ≤ x.toNat) (hlast : b.toNat = 0xF4 → x.toNat ≤ 0x8F)
    (hy : Continues y) (hz : Continues z) : Form b [x, y, z]

theorem within_iff {b low high : UInt8} :
    Within b (low, high) ↔ low.toNat ≤ b.toNat ∧ b.toNat ≤ high.toNat := by
  rw [Within, UInt8.le_iff_toNat_le, UInt8.le_iff_toNat_le]

/-- The first of two bytes that are owed may have a narrower range than the other. -/
theorem form_three {b : UInt8} {bs : List UInt8} (low high : Nat)
    (h : List.Forall₂ Within bs [(.ofNat low, .ofNat high), (0x80, 0xBF)])
    (hb : 0xE0 ≤ b.toNat ∧ b.toNat < 0xF0) (hlow : 0x80 ≤ low ∧ low < 256)
    (hhigh : high ≤ 0xBF) (hlong : b.toNat = 0xE0 → 0xA0 ≤ low)
    (hsurrogate : b.toNat = 0xED → high ≤ 0x9F) : Form b bs := by
  obtain _ | ⟨hx, _ | ⟨hy, _ | _⟩⟩ := h
  obtain ⟨hx, hx'⟩ := within_iff.mp hx
  rw [UInt8.toNat_ofNat_of_lt' hlow.2] at hx
  rw [UInt8.toNat_ofNat_of_lt' (show high < 256 by omega)] at hx'
  exact .three hb ⟨by omega, by omega⟩ (by omega) (by omega) (within_iff.mp hy)

/-- The first of three bytes that are owed may have a narrower range than the others. -/
theorem form_four {b : UInt8} {bs : List UInt8} (low high : Nat)
    (h : List.Forall₂ Within bs [(.ofNat low, .ofNat high), (0x80, 0xBF), (0x80, 0xBF)])
    (hb : 0xF0 ≤ b.toNat ∧ b.toNat ≤ 0xF4) (hlow : 0x80 ≤ low ∧ low < 256)
    (hhigh : high ≤ 0xBF) (hlong : b.toNat = 0xF0 → 0x90 ≤ low)
    (hlast : b.toNat = 0xF4 → high ≤ 0x8F) : Form b bs := by
  obtain _ | ⟨hx, _ | ⟨hy, _ | ⟨hz, _ | _⟩⟩⟩ := h
  obtain ⟨hx, hx'⟩ := within_iff.mp hx
  rw [UInt8.toNat_ofNat_of_lt' hlow.2] at hx
  rw [UInt8.toNat_ofNat_of_lt' (show high < 256 by omega)] at hx'
  exact .four hb ⟨by omega, by omega⟩ (by omega) (by omega) (within_iff.mp hy) (within_iff.mp hz)

theorem form_of_sequence {b : UInt8} {bs : List UInt8} (h : Sequence b bs) : Form b bs := by
  obtain ⟨owed, howed, hbs⟩ := h
  simp only [tails?, UInt8.lt_iff_toNat_lt, ← UInt8.toNat_inj, UInt8.reduceToNat] at howed
  -- One split for each range of first bytes; what a byte is not stays in the context.
  split at howed
  · cases howed
    cases hbs
    exact .one ‹_›
  split at howed
  · cases howed
  split at howed
  · cases howed
    obtain _ | ⟨hx, _ | _⟩ := hbs
    exact .two ⟨by omega, by omega⟩ (within_iff.mp hx)
  split at howed
  · cases howed
    exact form_three 0xA0 0xBF hbs ⟨by omega, by omega⟩ (by omega) (by omega) (by omega) (by omega)
  split at howed
  · cases howed
    exact form_three 0x80 0x9F hbs ⟨by omega, by omega⟩ (by omega) (by omega) (by omega) (by omega)
  split at howed
  · cases howed
    exact form_three 0x80 0xBF hbs ⟨by omega, by omega⟩ (by omega) (by omega) (by omega) (by omega)
  split at howed
  · cases howed
    exact form_four 0x90 0xBF hbs ⟨by omega, by omega⟩ (by omega) (by omega) (by omega) (by omega)
  split at howed
  · cases howed
    exact form_four 0x80 0xBF hbs ⟨by omega, by omega⟩ (by omega) (by omega) (by omega) (by omega)
  split at howed
  · cases howed
    exact form_four 0x80 0x8F hbs ⟨by omega, by omega⟩ (by omega) (by omega) (by omega) (by omega)
  · cases howed

theorem sequence_of_form {b : UInt8} {bs : List UInt8} (h : Form b bs) : Sequence b bs := by
  have hany : ∀ {x : UInt8}, Continues x → Within x (0x80, 0xBF) := fun hx => within_iff.mpr hx
  unfold Sequence
  simp only [tails?, UInt8.lt_iff_toNat_lt, ← UInt8.toNat_inj, UInt8.reduceToNat]
  cases h with
  | one h => exact ⟨[], if_pos h, .nil⟩
  | two hb hx =>
    rw [if_neg (by omega), if_neg (by omega), if_pos (by omega)]
    exact ⟨_, rfl, .cons (hany hx) .nil⟩
  | three hb hx hlong hsurrogate hy =>
    rw [if_neg (by omega), if_neg (by omega), if_neg (by omega)]
    by_cases hE0 : b.toNat = 0xE0
    · rw [if_pos hE0]
      exact ⟨_, rfl, .cons (within_iff.mpr ⟨hlong hE0, hx.2⟩) (.cons (hany hy) .nil)⟩
    by_cases hED : b.toNat = 0xED
    · rw [if_neg hE0, if_pos hED]
      exact ⟨_, rfl, .cons (within_iff.mpr ⟨hx.1, hsurrogate hED⟩) (.cons (hany hy) .nil)⟩
    rw [if_neg hE0, if_neg hED, if_pos (by omega)]
    exact ⟨_, rfl, .cons (hany hx) (.cons (hany hy) .nil)⟩
  | four hb hx hlong hlast hy hz =>
    rw [if_neg (by omega), if_neg (by omega), if_neg (by omega), if_neg (by omega),
      if_neg (by omega), if_neg (by omega)]
    have hrest := List.Forall₂.cons (hany hy) (.cons (hany hz) .nil)
    by_cases hF0 : b.toNat = 0xF0
    · rw [if_pos hF0]
      exact ⟨_, rfl, .cons (within_iff.mpr ⟨hlong hF0, hx.2⟩) hrest⟩
    by_cases hF4 : b.toNat = 0xF4
    · rw [if_neg hF0, if_neg (by omega), if_pos hF4]
      exact ⟨_, rfl, .cons (within_iff.mpr ⟨hx.1, hlast hF4⟩) hrest⟩
    rw [if_neg hF0, if_pos (by omega)]
    exact ⟨_, rfl, .cons (hany hx) hrest⟩

/-! ### Encoding -/

section Encode

variable {n : Nat}

theorem val_ofNat (h : n.isValidChar) : (Char.ofNat n).val.toNat = n := by
  rw [Char.ofNat, dif_pos h]
  rfl

theorem encode_one (h : n < 0x80) : String.utf8EncodeChar (Char.ofNat n) = [.ofNat n] := by
  rw [String.utf8EncodeChar, val_ofNat (.inl (by omega))]
  exact if_pos (by omega)

theorem encode_two (h : 0x80 ≤ n) (h' : n < 0x800) :
    String.utf8EncodeChar (Char.ofNat n) = [.ofNat (n / 64 + 0xC0), .ofNat (n % 64 + 0x80)] := by
  have hlead : n / 64 % 0x20 = n / 64 := Nat.mod_eq_of_lt (by omega)
  rw [String.utf8EncodeChar, val_ofNat (.inl (by omega)), if_neg (by omega), if_pos (by omega),
    hlead]

theorem encode_three (h : 0x800 ≤ n) (h' : n < 0x10000) (hvalid : n.isValidChar) :
    String.utf8EncodeChar (Char.ofNat n) =
      [.ofNat (n / 4096 + 0xE0), .ofNat (n / 64 % 64 + 0x80), .ofNat (n % 64 + 0x80)] := by
  have hlead : n / 4096 % 0x10 = n / 4096 := Nat.mod_eq_of_lt (by omega)
  rw [String.utf8EncodeChar, val_ofNat hvalid, if_neg (by omega), if_neg (by omega),
    if_pos (by omega), hlead]

theorem encode_four (h : 0x10000 ≤ n) (h' : n < 0x110000) :
    String.utf8EncodeChar (Char.ofNat n) =
      [.ofNat (n / 262144 + 0xF0), .ofNat (n / 4096 % 64 + 0x80), .ofNat (n / 64 % 64 + 0x80),
        .ofNat (n % 64 + 0x80)] := by
  have hlead : n / 262144 % 0x08 = n / 262144 := Nat.mod_eq_of_lt (by omega)
  rw [String.utf8EncodeChar, val_ofNat (.inr ⟨by omega, by omega⟩), if_neg (by omega),
    if_neg (by omega), if_neg (by omega), hlead]

end Encode

/-- The bits of a character that has begun, with those of one more byte. -/
def addBits (bits : Nat) (b : UInt8) : Nat := bits * 64 + (b.toNat - 0x80)

def bitsOf (bits : Nat) (bs : List UInt8) : Nat := bs.foldl addBits bits

theorem bitsOf_cons (bits : Nat) (b : UInt8) (bs : List UInt8) :
    bitsOf bits (b :: bs) = bitsOf (addBits bits b) bs := by
  rw [bitsOf, List.foldl_cons, bitsOf]

theorem ofNat_eq {b : UInt8} {n : Nat} (h : n = b.toNat) : UInt8.ofNat n = b := by
  rw [h, UInt8.ofNat_toNat]

theorem leadBits_eq (b : UInt8) :
    leadBits b = if b.toNat < 0x80 then b.toNat
      else if b.toNat < 0xE0 then b.toNat - 0xC0
      else if b.toNat < 0xF0 then b.toNat - 0xE0
      else b.toNat - 0xF0 := by
  simp only [leadBits, UInt8.lt_iff_toNat_lt, UInt8.reduceToNat]

/-- A sequence is what its character is encoded as. -/
theorem encode_of_form {b : UInt8} {bs : List UInt8} (h : Form b bs) :
    String.utf8EncodeChar (Char.ofNat (bitsOf (leadBits b) bs)) = b :: bs := by
  rw [leadBits_eq]
  cases h with
  | one h =>
    rw [if_pos h]
    exact (encode_one h).trans (congrArg (List.cons · []) (ofNat_eq rfl))
  | @two x hb hx =>
    obtain ⟨hx, hx'⟩ := hx
    rw [if_neg (by omega), if_pos (by omega)]
    have hn : bitsOf (b.toNat - 0xC0) [x] = (b.toNat - 0xC0) * 64 + (x.toNat - 0x80) := rfl
    generalize bitsOf (b.toNat - 0xC0) [x] = n at hn
    rw [encode_two (by omega) (by omega), ofNat_eq (b := b) (by omega),
      ofNat_eq (b := x) (by omega)]
  | @three x y hb hx hlong hsurrogate hy =>
    obtain ⟨hx, hx'⟩ := hx
    obtain ⟨hy, hy'⟩ := hy
    rw [if_neg (by omega), if_neg (by omega), if_pos (by omega)]
    have hn : bitsOf (b.toNat - 0xE0) [x, y] =
      ((b.toNat - 0xE0) * 64 + (x.toNat - 0x80)) * 64 + (y.toNat - 0x80) := rfl
    generalize bitsOf (b.toNat - 0xE0) [x, y] = n at hn
    have hvalid : n.isValidChar := by
      show n < 0xD800 ∨ 0xDFFF < n ∧ n < 0x110000
      omega
    rw [encode_three (by omega) (by omega) hvalid, ofNat_eq (b := b) (by omega),
      ofNat_eq (b := x) (by omega), ofNat_eq (b := y) (by omega)]
  | @four x y z hb hx hlong hlast hy hz =>
    obtain ⟨hx, hx'⟩ := hx
    obtain ⟨hy, hy'⟩ := hy
    obtain ⟨hz, hz'⟩ := hz
    rw [if_neg (by omega), if_neg (by omega), if_neg (by omega)]
    have hn : bitsOf (b.toNat - 0xF0) [x, y, z] =
      (((b.toNat - 0xF0) * 64 + (x.toNat - 0x80)) * 64 + (y.toNat - 0x80)) * 64 +
        (z.toNat - 0x80) := rfl
    generalize bitsOf (b.toNat - 0xF0) [x, y, z] = n at hn
    rw [encode_four (by omega) (by omega), ofNat_eq (b := b) (by omega),
      ofNat_eq (b := x) (by omega), ofNat_eq (b := y) (by omega), ofNat_eq (b := z) (by omega)]

/-- A character is encoded as a sequence with its bits. -/
theorem exists_form (c : Char) :
    ∃ b bs, String.utf8EncodeChar c = b :: bs ∧ Form b bs ∧
      Char.ofNat (bitsOf (leadBits b) bs) = c := by
  have hbyte : ∀ {m : Nat}, m < 256 → (UInt8.ofNat m).toNat = m := UInt8.toNat_ofNat_of_lt
  obtain ⟨n, hvalid, rfl⟩ : ∃ n : Nat, n.isValidChar ∧ c = Char.ofNat n :=
    ⟨c.toNat, c.valid, c.ofNat_toNat.symm⟩
  have hn : n < 0xD800 ∨ 0xDFFF < n ∧ n < 0x110000 := hvalid
  rcases Nat.lt_or_ge n 0x80 with h1 | h1
  · have hb := hbyte (m := n) (by omega)
    refine ⟨_, _, encode_one h1, .one (by omega), congrArg Char.ofNat ?_⟩
    rw [leadBits_eq, if_pos (by omega)]
    exact hb
  rcases Nat.lt_or_ge n 0x800 with h2 | h2
  · have hb := hbyte (m := n / 64 + 0xC0) (by omega)
    have hx := hbyte (m := n % 64 + 0x80) (by omega)
    refine ⟨_, _, encode_two h1 h2, .two (by omega) ⟨by omega, by omega⟩, congrArg Char.ofNat ?_⟩
    rw [leadBits_eq, if_neg (by omega), if_pos (by omega)]
    show _ * 64 + _ = n
    omega
  rcases Nat.lt_or_ge n 0x10000 with h3 | h3
  · have hb := hbyte (m := n / 4096 + 0xE0) (by omega)
    have hx := hbyte (m := n / 64 % 64 + 0x80) (by omega)
    have hy := hbyte (m := n % 64 + 0x80) (by omega)
    refine ⟨_, _, encode_three h2 h3 hvalid, .three (by omega) ⟨by omega, by omega⟩ (by omega)
      (by omega) ⟨by omega, by omega⟩, congrArg Char.ofNat ?_⟩
    rw [leadBits_eq, if_neg (by omega), if_neg (by omega), if_pos (by omega)]
    show (_ * 64 + _) * 64 + _ = n
    omega
  · have hb := hbyte (m := n / 262144 + 0xF0) (by omega)
    have hx := hbyte (m := n / 4096 % 64 + 0x80) (by omega)
    have hy := hbyte (m := n / 64 % 64 + 0x80) (by omega)
    have hz := hbyte (m := n % 64 + 0x80) (by omega)
    refine ⟨_, _, encode_four h3 (by omega), .four (by omega) ⟨by omega, by omega⟩ (by omega)
      (by omega) ⟨by omega, by omega⟩ ⟨by omega, by omega⟩, congrArg Char.ofNat ?_⟩
    rw [leadBits_eq, if_neg (by omega), if_neg (by omega), if_neg (by omega)]
    show ((_ * 64 + _) * 64 + _) * 64 + _ = n
    omega

/-! ### Decoding -/

theorem decodeFrom_owed {position : Nat} {c : Begun} {bs : List UInt8} (hne : bs ≠ [])
    (h : List.Forall₂ Within bs c.owed) (past : List Char) (rest : List UInt8) :
    decodeFrom position (some c) past (bs ++ rest) =
      decodeFrom (position + bs.length) none (Char.ofNat (bitsOf c.bits bs) :: past) rest := by
  induction bs generalizing position c with
  | nil => exact absurd rfl hne
  | cons b bs ih =>
    obtain ⟨first, byte, bits, owed⟩ := c
    obtain _ | ⟨hb, hbs⟩ := h
    rename_i range owed
    obtain ⟨low, high⟩ := range
    have hrange : (decide (low ≤ b) && decide (b ≤ high)) = true := by
      rw [Bool.and_eq_true, decide_eq_true_eq, decide_eq_true_eq]
      exact hb
    rw [List.cons_append, decodeFrom]
    dsimp only
    rw [if_pos hrange]
    cases hbs with
    | nil => rfl
    | @cons x range bs owed hx hbs =>
      have hposition : position + (b :: x :: bs).length = position + 1 + (x :: bs).length := by
        rw [List.length_cons]
        omega
      rw [if_neg (by simp), bitsOf_cons, hposition]
      exact ih (c := ⟨first, byte, addBits bits b, range :: owed⟩) (List.cons_ne_nil x bs)
        (.cons hx hbs)

theorem decodeFrom_sequence {b : UInt8} {bs : List UInt8} (h : Sequence b bs) (position : Nat)
    (past : List Char) (rest : List UInt8) :
    decodeFrom position none past (b :: (bs ++ rest)) =
      decodeFrom (position + 1 + bs.length) none (Char.ofNat (bitsOf (leadBits b) bs) :: past)
        rest := by
  obtain ⟨owed, howed, hbs⟩ := h
  rw [decodeFrom, howed]
  cases hbs with
  | nil =>
    have hlead : leadBits b = b.toNat := by
      obtain ⟨h⟩ | _ := form_of_sequence ⟨[], howed, .nil⟩
      rw [leadBits_eq, if_pos h]
    rw [hlead]
    rfl
  | @cons x range bs owed hx hbs =>
    exact decodeFrom_owed (c := ⟨position, b, leadBits b, range :: owed⟩) (List.cons_ne_nil x bs)
      (.cons hx hbs) past rest

/-- Where a character has begun and the rest is decoded, the bytes that it owes are there. -/
theorem exists_of_decodeFrom_owed {position : Nat} {c : Begun} {past s : List Char}
    {bytes : List UInt8} (h : decodeFrom position (some c) past bytes = .ok s) :
    ∃ bs rest, bytes = bs ++ rest ∧ List.Forall₂ Within bs c.owed := by
  induction bytes generalizing position c with
  | nil => cases h
  | cons b bytes ih =>
    obtain ⟨first, byte, bits, owed⟩ := c
    rw [decodeFrom] at h
    dsimp only at h
    cases owed with
    | nil => cases h
    | cons range owed =>
      dsimp only at h
      split at h
      · rename_i hrange
        rw [Bool.and_eq_true, decide_eq_true_eq, decide_eq_true_eq] at hrange
        split at h
        · rename_i hempty
          rw [List.isEmpty_iff.mp hempty]
          exact ⟨[b], bytes, rfl, .cons hrange .nil⟩
        · obtain ⟨bs, rest, rfl, hbs⟩ := ih h
          exact ⟨b :: bs, rest, rfl, .cons hrange hbs⟩
      · cases h

theorem exists_sequence {position : Nat} {past s : List Char} {b : UInt8} {bytes : List UInt8}
    (h : decodeFrom position none past (b :: bytes) = .ok s) :
    ∃ bs rest, bytes = bs ++ rest ∧ Sequence b bs := by
  rw [decodeFrom] at h
  split at h
  · cases h
  · rename_i howed
    exact ⟨[], bytes, rfl, [], howed, .nil⟩
  · rename_i owed _ howed
    obtain ⟨bs, rest, hbytes, hbs⟩ := exists_of_decodeFrom_owed h
    exact ⟨bs, rest, hbytes, owed, howed, hbs⟩

theorem decodeFrom_encoded (position : Nat) (past s : List Char) :
    decodeFrom position none past (s.flatMap String.utf8EncodeChar) = .ok (past.reverse ++ s) := by
  induction s generalizing position past with
  | nil => rw [List.append_nil]; rfl
  | cons c s ih =>
    obtain ⟨b, bs, hencode, hform, hc⟩ := exists_form c
    rw [List.flatMap_cons, hencode, List.cons_append,
      decodeFrom_sequence (sequence_of_form hform), hc, ih, List.reverse_cons, List.append_assoc]
    rfl

theorem encoded_of_decodeFrom {position : Nat} {past s : List Char} {bytes : List UInt8}
    (h : decodeFrom position none past bytes = .ok s) :
    ∃ t, s = past.reverse ++ t ∧ bytes = t.flatMap String.utf8EncodeChar := by
  induction hn : bytes.length using Nat.strongRecOn generalizing position past bytes with
  | ind n ih =>
    cases bytes with
    | nil =>
      cases h
      exact ⟨[], (List.append_nil _).symm, rfl⟩
    | cons b bytes =>
      obtain ⟨bs, rest, rfl, hsequence⟩ := exists_sequence h
      rw [decodeFrom_sequence hsequence] at h
      have hlt : rest.length < n := by
        rw [← hn, List.length_cons, List.length_append]
        omega
      obtain ⟨t, rfl, rfl⟩ := ih rest.length hlt h rfl
      refine ⟨Char.ofNat (bitsOf (leadBits b) bs) :: t, ?_, ?_⟩
      · rw [List.reverse_cons, List.append_assoc]
        rfl
      · rw [List.flatMap_cons, encode_of_form (form_of_sequence hsequence)]
        rfl

/-- Bytes are decoded exactly if they are the encoding of a text, and as that text. -/
theorem decode_eq_ok_iff {bytes : List UInt8} {s : List Char} :
    decode bytes = .ok s ↔ bytes = s.flatMap String.utf8EncodeChar := by
  constructor
  · intro h
    obtain ⟨t, rfl, hbytes⟩ := encoded_of_decodeFrom h
    exact hbytes
  · rintro rfl
    exact decodeFrom_encoded 0 [] s

end Utf8

end Text

end Estree
