import Estree.Limit

/-!
What stands at a path, and how paths are written.
-/

namespace Estree

namespace Path

def isSlash (l : Letter) : Bool := l = '/'

/-- The names between the slashes of a path. -/
def pieces (path : Text) : List Text := (path.letters.splitOnP isSlash).map Text.mk

/-- The leading slashes that count: one for any number but two. -/
def root (path : Text) : Text :=
  match path.letters with
  | .char '/' :: .char '/' :: .char '/' :: _ => "/"
  | .char '/' :: .char '/' :: _ => "//"
  | .char '/' :: _ => "/"
  | _ => ""

/-- A piece that leads nowhere. -/
def isIdle (piece : Text) : Bool := piece = "" || piece = "."

/-- The path without the pieces that lead nowhere. -/
def normal (path : Text) : Text :=
  let kept := (pieces path).filter fun piece => !isIdle piece
  let text := root path ++ Text.intercalate "/" kept
  if text = "" then "." else text

/-- The bytes of a path. -/
def size (path : Text) : Nat := path.letters.foldl (fun n l => n + l.size) 0

/-- The most bytes of a name, and of a path. -/
def mostInName : Nat := 255

def mostInPath : Nat := 4095

/-- Whether a letter can stand in a path.  The surrogates from U+DC80 to U+DCFF
stand for bytes that are no text. -/
def isWritable : Letter → Bool
  | .char _ => true
  | l => 0xDC80 ≤ l.code && l.code ≤ 0xDCFF

def isSurrogate : Letter → Bool
  | .char _ => false
  | .surrogate _ => true

/-- The first surrogates of a path that stand for no byte, from a position on. -/
def surrogates? (position : Nat) : List Letter → Option Limit
  | [] => none
  | l :: rest =>
    if isWritable l then surrogates? (position + 1) rest
    else
      let more := (rest.takeWhile isSurrogate).length
      some (.surrogateInPath position (position + 1 + more) l)

/-- Why a text is no path at all, if it is none. -/
def limit? (path : Text) : Option Limit :=
  (surrogates? 0 path.letters).or
    (if path.letters.contains '\x00' then some .nullInPath else none)

end Path

/-- What is found at a path. -/
inductive Found where
  | file (bytes : List UInt8)
  | directory
  | missing
  /-- The path leads through a file. -/
  | blocked
  /-- The path is too long, or a name that is looked for. -/
  | tooLong
  /-- The path leads through a directory that must not be searched. -/
  | denied
  /-- Something is there that must not be read. -/
  | unreadable
  /-- The text is no path. -/
  | noPath (limit : Limit)
  deriving Repr

/-- Why the bytes at a path cannot be had. -/
inductive Unread where
  | missing
  | denied
  | blocked
  | directory
  | tooLong
  deriving DecidableEq, Repr

def Unread.message (path : Text) : Unread → String
  | .missing => "[Errno 2] No such file or directory: " ++ path.quote
  | .denied => "[Errno 13] Permission denied: " ++ path.quote
  | .blocked => "[Errno 20] Not a directory: " ++ path.quote
  | .directory => "[Errno 21] Is a directory: " ++ path.quote
  | .tooLong => "[Errno 36] File name too long: " ++ path.quote

/-- What stands at each path. -/
abbrev Files := Text → Found

namespace Files

/-- Whether something stands at a path.  A text that is no path leads to nothing. -/
def isThere (files : Files) (path : Text) : Except Limit Bool :=
  match files path with
  | .file _ => .ok true
  | .directory => .ok true
  | .unreadable => .ok true
  | .tooLong => .error (.longPath path)
  | .denied => .error (.deniedPath path)
  | _ => .ok false

/-- The bytes of a file, or why they cannot be had. -/
def bytes (files : Files) (path : Text) : Except Limit (Except Unread (List UInt8)) :=
  match files path with
  | .file bytes => .ok (.ok bytes)
  | .directory => .ok (.error .directory)
  | .missing => .ok (.error .missing)
  | .blocked => .ok (.error .blocked)
  | .tooLong => .ok (.error .tooLong)
  | .denied => .ok (.error .denied)
  | .unreadable => .ok (.error .denied)
  | .noPath limit => .error limit

/-- What is found at a place, given by its names from the root, innermost first.  A
directory is there if it is listed or something is listed within it. -/
def place (listed : List (List Text × Found)) (names : List Text) : Found :=
  if names.isEmpty then .directory
  else match listed.find? fun (key, _) => key == names with
    | some (_, found) => found
    | none =>
      if listed.any fun (key, _) => names.isSuffixOf key then .directory else .missing

/-- Follow the pieces of a path from a place.  The root is its own parent. -/
def follow (listed : List (List Text × Found)) : List Text → List Text → Found
  | names, [] => place listed names
  | names, piece :: rest =>
    match place listed names with
    | .directory =>
      if Path.isIdle piece then follow listed names rest
      else if piece = ".." then follow listed (names.drop 1) rest
      else if Path.mostInName < Path.size piece then .tooLong
      else follow listed (piece :: names) rest
    | .file _ => .blocked
    | found => found

/-- The names of a place that a path leads to from a directory. -/
def namesAt (home : List Text) (path : Text) : List Text :=
  ((Path.pieces path).filter fun piece => !Path.isIdle piece).reverse
    ++ if Path.root path = "" then home else []

/-- Only the given files and directories, seen from a directory that is given by its
names, innermost first. -/
def ofList (home : List Text) (entries : List (Text × Found)) : Files := fun path =>
  let listed := (home, .directory) :: entries.map fun (name, found) => (namesAt home name, found)
  match Path.limit? path with
  | some limit => .noPath limit
  | none =>
    if path = "" then .missing
    else if Path.mostInPath < Path.size path then .tooLong
    else follow listed (if Path.root path = "" then home else []) (Path.pieces path)

end Files

end Estree
