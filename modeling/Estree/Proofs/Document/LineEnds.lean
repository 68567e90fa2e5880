import Estree.Proofs.Document
import Estree.Proofs.Json.LineEnds
import Estree.Proofs.Json.Objects
import Estree.Proofs.Text.Utf8

/-!
Trees of files and trees of texts.

A file is read with its line ends written as line feeds, and a text as it stands.  The same
tree comes of both or none does, for the same reason; the file is named by its path.  Main
statement: `load_reads_text`.
-/

namespace Estree

namespace Document

open Text (unixLines)

/-- What is said of a flaw in a text. -/
def said (flaw : Json.Flaw) (left : Nat) (s : List Letter) : Text :=
  "invalid JSON: " ++ flaw.placed left s

/-- What comes of a file and of its text: the same tree, the same flaw in each, no node in
both, or a number that is too long. -/
inductive SameEnd (path source : Text) : Except Stop Value → Except Stop Value → Prop
  | tree (v : Value) : SameEnd path source (.ok v) (.ok v)
  | flaw (flaw : Json.Flaw) (m n : Nat) (s t : List Letter) :
    SameEnd path source
      (.error (.failure (.unreadable (.text path) (.text (said flaw m s)))))
      (.error (.failure (.unreadable (.text source) (.text (said flaw n t)))))
  | notATree (reason : Value) :
    SameEnd path source (.error (.failure (.notATree reason (.text path))))
      (.error (.failure (.notATree reason .null)))
  | longNumber (digits : Nat) :
    SameEnd path source (.error (.limit (.longNumber digits)))
      (.error (.limit (.longNumber digits)))

theorem sameEnd_read (path source : Text) (s : List Char) :
    SameEnd path source ((read path ((unixLines s).map .char)).mapError (inFile path))
      (read source (s.map .char)) := by
  unfold read
  rcases Json.read_sameLines (Json.sameLines_unixLines s) with
    ⟨v, hs, ht⟩ | ⟨p, q, hs, ht, hproblem⟩
  · rw [hs, ht]
    dsimp only
    split
    · exact .tree v
    · exact .notATree _
  · rw [hs, ht]
    cases hproblem with
    | flaw flaw m n => exact .flaw flaw n m _ _
    | longNumber digits => exact .longNumber digits

theorem read_eq_ok {source : Text} {s : List Letter} {tree : Value}
    (h : read source s = .ok tree) : Json.read s = .ok tree ∧ tree.isNode = true := by
  unfold read at h
  split at h
  · cases h
  · cases h
  · split at h
    · cases h
      exact ⟨‹_›, ‹_›⟩
    · cases h

theorem SameEnd.ok_iff {path source : Text} {x y : Except Stop Value}
    (h : SameEnd path source x y) (tree : Value) : x = .ok tree ↔ y = .ok tree := by
  cases h with
  | tree v => rfl
  | _ => exact iff_of_false (fun h => nomatch h) fun h => nomatch h

section File

variable {files : Files} {path : Text} {bytes : List UInt8}

theorem treeAt_of_decode {s : List Char} (hfile : files path = .file bytes)
    (hdecode : Text.Utf8.decode bytes = .ok s) :
    treeAt files path = (read path ((unixLines s).map .char)).mapError (inFile path) := by
  have htext : textOf files path = .ok (.ok (unixLines s)) := by
    simp only [textOf, Files.bytes, hfile, bind, Except.bind, hdecode]
    rfl
  rw [treeAt, htext]

theorem treeAt_of_undecoded {problem : Text.Utf8.Problem} (hfile : files path = .file bytes)
    (hdecode : Text.Utf8.decode bytes = .error problem) :
    treeAt files path =
      .error (.failure (.unreadable (.text path) (.text problem.message))) := by
  have htext : textOf files path = .ok (.error problem.message) := by
    simp only [textOf, Files.bytes, hfile, bind, Except.bind, hdecode]
    rfl
  rw [treeAt, htext]

/-- A file that is no text cannot be read, and its path is told.  Any other file comes to
the same as its text, the line ends of which stand as they are.  A tree is an object, and
the last `type` that it writes is text. -/
theorem load_reads_text (hfile : files path = .file bytes) :
    ((∀ s : List Char, bytes ≠ s.flatMap String.utf8EncodeChar) →
      ∃ problem, Text.Utf8.decode bytes = .error problem ∧ (load files path).collect.1 =
        .error (.failure (.unreadable (.text path) (.text problem.message)))) ∧
    (∀ s : List Char, bytes = s.flatMap String.utf8EncodeChar → ∀ source,
      (∀ tree, (load files path).collect.1 = .ok tree ↔ read source (s.map .char) = .ok tree) ∧
      SameEnd path source (load files path).collect.1 (read source (s.map .char))) ∧
    ∀ source s tree, read source s = .ok tree →
      ∃ r pairs t name, Json.skipBlank s = .char '\x7b' :: r ∧
        Json.Writes (Json.skipBlank r) pairs t ∧ Json.skipBlank t = [] ∧
        tree = .mapping (Dict.ofList pairs).entries ∧
        pairs.reverse.lookup ("type" : Text) = some (.text name) := by
  rw [(settled_load files path).2]
  refine ⟨fun hbytes => ?_, fun s hbytes source => ?_, fun source s tree h => ?_⟩
  · cases hdecode : Text.Utf8.decode bytes with
    | error problem => exact ⟨problem, rfl, treeAt_of_undecoded hfile hdecode⟩
    | ok s => exact absurd (Text.Utf8.decode_eq_ok_iff.mp hdecode) (hbytes s)
  · have hsame := sameEnd_read path source s
    rw [← treeAt_of_decode hfile (Text.Utf8.decode_eq_ok_iff.mpr hbytes)] at hsame
    exact ⟨hsame.ok_iff, hsame⟩
  · obtain ⟨hread, hnode⟩ := read_eq_ok h
    exact Json.read_isNode hread hnode

end File

/-- A document on two lines, the first of which ends in a carriage return and a line feed. -/
def twoLines : List Char :=
  ['\x7b', '"', 't', 'y', 'p', 'e', '"', ':', '\r', '\n', '"', 'P', '"', '\x7d']

def twoLinesBytes : List UInt8 :=
  [0x7B, 0x22, 0x74, 0x79, 0x70, 0x65, 0x22, 0x3A, 0x0D, 0x0A, 0x22, 0x50, 0x22, 0x7D]

def twoLinesFiles : Files := .ofList [] [("t.json", .file twoLinesBytes)]

theorem two_lines_loaded :
    twoLinesFiles "t.json" = .file twoLinesBytes ∧
      twoLinesBytes = twoLines.flatMap String.utf8EncodeChar ∧
      (load twoLinesFiles "t.json").collect.1 = .ok (.mapping [("type", .text "P")]) ∧
      read "<string>" (twoLines.map .char) = .ok (.mapping [("type", .text "P")]) := by
  have hfile : twoLinesFiles "t.json" = .file twoLinesBytes := rfl
  have hbytes : twoLinesBytes = twoLines.flatMap String.utf8EncodeChar := rfl
  have hload : (load twoLinesFiles "t.json").collect.1 = .ok (.mapping [("type", .text "P")]) := rfl
  obtain ⟨-, htext, -⟩ := load_reads_text hfile
  exact ⟨hfile, hbytes, hload, ((htext twoLines hbytes "<string>").1 _).mp hload⟩

end Document

end Estree
