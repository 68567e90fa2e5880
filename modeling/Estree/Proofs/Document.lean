import Estree.Document
import Estree.Proofs.Log

/-!
What the reading of a tree document comes to: a tree, a failure or a limit.
-/

namespace Estree

namespace Document

/-- The tree of a file, or what ends the reading. -/
def treeAt (files : Files) (path : Text) : Except Stop Value :=
  match textOf files path with
  | .error limit => .error (.limit limit)
  | .ok (.error reason) => .error (.failure (.unreadable (.text path) (.text reason)))
  | .ok (.ok s) => (read path (s.map .char)).mapError (inFile path)

theorem ends_load (files : Files) (path : Text) :
    ∃ lines, (load files path).Ends (treeAt files path) lines := by
  unfold load treeAt
  cases textOf files path with
  | error limit => exact ⟨[], Logged.ends_throw _⟩
  | ok text =>
    cases text with
    | error reason => exact ⟨[], Logged.ends_throw _⟩
    | ok s =>
      dsimp only
      cases read path (s.map .char) with
      | error stop => exact ⟨_, (Logged.ends_note _).bind (Logged.ends_throw _)⟩
      | ok tree => exact ⟨_, (Logged.ends_note _).bind (Logged.ends_pure tree)⟩

theorem settled_load (files : Files) (path : Text) :
    (load files path).Settled ∧ (load files path).collect.1 = treeAt files path := by
  obtain ⟨_, h⟩ := ends_load files path
  exact ⟨h.settled, by rw [h.collect]⟩

theorem read_eq_error {source : Text} {s : List Letter} {stop : Stop}
    (h : read source s = .error stop) :
    (∃ f, stop = .failure f) ∨ ∃ digits, stop = .limit (.longNumber digits) := by
  unfold read at h
  split at h
  · cases h
    exact .inr ⟨_, rfl⟩
  · cases h
    exact .inl ⟨_, rfl⟩
  · split at h
    · cases h
    · cases h
      exact .inl ⟨_, rfl⟩

theorem textOf_eq_error {files : Files} {path : Text} {l : Limit}
    (h : textOf files path = .error l) : files path = .noPath l := by
  unfold textOf Files.bytes at h
  cases hfound : files path with
  | noPath limit =>
    rw [hfound] at h
    cases h
    rfl
  | file bytes =>
    rw [hfound] at h
    cases hdecode : Text.Utf8.decode bytes <;> simp [bind, Except.bind, hdecode] at h <;> cases h
  | _ => rw [hfound] at h; cases h

/-- No tree is had because of a failure, a number that is too long, or a path that is
none. -/
theorem treeAt_eq_error {files : Files} {path : Text} {stop : Stop}
    (h : treeAt files path = .error stop) :
    (∃ f, stop = .failure f) ∨
      ∃ l, stop = .limit l ∧ ((∃ digits, l = .longNumber digits) ∨ files path = .noPath l) := by
  unfold treeAt at h
  split at h
  · rename_i l htext
    cases h
    exact .inr ⟨l, rfl, .inr (textOf_eq_error htext)⟩
  · cases h
    exact .inl ⟨_, rfl⟩
  · rename_i s htext
    obtain ⟨stop', hread, rfl⟩ := Logged.mapError_eq_error.mp h
    rcases read_eq_error hread with ⟨f, rfl⟩ | ⟨digits, rfl⟩
    · cases f <;> exact .inl ⟨_, rfl⟩
    · exact .inr ⟨_, rfl, .inl ⟨digits, rfl⟩⟩

section Ends

variable {files : Files} {path : Text}

theorem treeAt_ne_clash (c : Settings.Clash) : treeAt files path ≠ .error (.clash c) := by
  intro h
  rcases treeAt_eq_error h with ⟨_, hf⟩ | ⟨_, hl, -⟩
  · cases hf
  · cases hl

theorem treeAt_ne_fault (fault : Fault) : treeAt files path ≠ .error (.fault fault) := by
  intro h
  rcases treeAt_eq_error h with ⟨_, hf⟩ | ⟨_, hl, -⟩
  · cases hf
  · cases hl

theorem treeAt_eq_limit {l : Limit} (h : treeAt files path = .error (.limit l)) :
    (∃ digits, l = .longNumber digits) ∨ files path = .noPath l := by
  rcases treeAt_eq_error h with ⟨_, hf⟩ | ⟨_, hl, hreach⟩
  · cases hf
  · cases hl
    exact hreach

end Ends

end Document

end Estree
