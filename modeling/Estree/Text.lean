/-!
Text as documents hold it.  A document may write half of a surrogate pair alone,
so a letter of a text is a character or such a half.  Text without halves is what
a `String` holds.
-/

namespace Estree

inductive Letter where
  | char (c : Char)
  /-- The surrogate that is so far from the first one. -/
  | surrogate (n : Fin 0x800)
  deriving DecidableEq, Repr, Inhabited

namespace Letter

def firstSurrogate : Nat := 0xD800

def code : Letter → Nat
  | .char c => c.toNat
  | .surrogate n => firstSurrogate + n

/-- The letter of a code up to the last one. -/
def ofCode (n : Nat) : Letter :=
  if h : firstSurrogate ≤ n ∧ n - firstSurrogate < 0x800 then .surrogate ⟨_, h.2⟩
  else .char (Char.ofNat n)

theorem ofCode_code (l : Letter) : ofCode l.code = l := by
  cases l with
  | char c =>
    have hv : c.toNat < 0xD800 ∨ 0xDFFF < c.toNat ∧ c.toNat < 0x110000 := c.valid
    have h : ¬(firstSurrogate ≤ c.toNat ∧ c.toNat - firstSurrogate < 0x800) := by
      intro h
      simp only [firstSurrogate] at h
      omega
    simp only [code, ofCode, dif_neg h, Char.ofNat_toNat]
  | surrogate n =>
    have h : firstSurrogate ≤ firstSurrogate + n.val
        ∧ firstSurrogate + n.val - firstSurrogate < 0x800 := by omega
    rw [code, ofCode, dif_pos h]
    exact congrArg surrogate (Fin.ext (Nat.add_sub_cancel_left _ _))

def char? : Letter → Option Char
  | .char c => some c
  | .surrogate _ => none

instance : Coe Char Letter := ⟨.char⟩

/-- Letters are in the order of their codes. -/
instance : LT Letter := ⟨fun a b => a.code < b.code⟩

instance (a b : Letter) : Decidable (a < b) := inferInstanceAs (Decidable (a.code < b.code))

/-- The bytes that a letter takes as a part of a file name. -/
def size : Letter → Nat
  | .char c => c.utf8Size
  | .surrogate _ => 1

end Letter

structure Text where
  letters : List Letter
  deriving DecidableEq, Repr, Inhabited

namespace Text

def ofString (s : String) : Text := ⟨s.toList.map .char⟩

instance : Coe String Text := ⟨ofString⟩

/-- The text as a string, unless a surrogate stands in it. -/
def string? (s : Text) : Option String := (s.letters.mapM Letter.char?).map String.ofList

/-- The text as a string, with a mark in the place of each surrogate. -/
def marked (s : Text) : String := String.ofList (s.letters.map fun l => l.char?.getD '\uFFFD')

def length (s : Text) : Nat := s.letters.length

def isEmpty (s : Text) : Bool := s.letters.isEmpty

instance : Append Text := ⟨fun s t => ⟨s.letters ++ t.letters⟩⟩

def replicate (n : Nat) (c : Char) : Text := ⟨List.replicate n (.char c)⟩

/-- The parts one after another with a separator between them. -/
def intercalate (separator : Text) (parts : List Text) : Text :=
  ⟨List.intercalate separator.letters (parts.map letters)⟩

/-- Texts are in alphabetical order by code. -/
instance : LT Text := ⟨fun s t => s.letters < t.letters⟩

instance (s t : Text) : Decidable (s < t) := inferInstanceAs (Decidable (s.letters < t.letters))

@[simp] theorem letters_ofString (s : String) : (ofString s).letters = s.toList.map .char := rfl

@[simp] theorem letters_append (s t : Text) : (s ++ t).letters = s.letters ++ t.letters := rfl

@[ext] theorem ext {s t : Text} (h : s.letters = t.letters) : s = t := by
  cases s; cases t; cases h; rfl

theorem string?_ofString (s : String) : (ofString s).string? = some s := by
  have h : ∀ cs : List Char, (cs.map Letter.char).mapM Letter.char? = some cs := by
    intro cs
    induction cs with
    | nil => rfl
    | cons c cs ih => simp [Letter.char?, ih]
  simp [string?, h]

theorem ofString_inj {s t : String} : ofString s = ofString t ↔ s = t :=
  ⟨fun h => Option.some.inj (by rw [← string?_ofString s, ← string?_ofString t, h]),
    fun h => h ▸ rfl⟩

end Text

end Estree
