/-
  ReportStore.FileTree
  ────────────────────
  **THE FILES BELOW THE WORKING DIRECTORY, AS A VALUE.**

  The store reads and appends to files; a tree says what is there.  It maps
  places to directories and files, a place being the names on the way to it.
  Looking a path up walks its pieces one by one, as an operating system
  does, so it fails for the reason and at the piece where the system would:
  a missing name, a file where a directory is needed, a name too long.
  What lies above the working directory is a directory with nothing in it,
  and so is the root.

      node? (put t p n) q = if q = p then some n else node? t q
-/
import ReportStore.Dict
import ReportStore.Path

namespace ReportStore

/-! ## §1. Trees. -/

/-- The names on the way to an entry.  Leading `..` lead above the working
directory; a leading `/` stands for the root. -/
abbrev Place := List String

/-- What stands at a place. -/
inductive Node where
  | directory
  | file (bytes : Bytes)
  deriving DecidableEq

/-- The entries of a file tree. -/
structure FileTree where
  entries : List (Place × Node)

/-- Why the system refuses an operation on a path. -/
inductive FileFault where
  | notFound
  | alreadyExists
  | notDirectory
  | isDirectory
  | nameTooLong
  /-- The path holds a NUL character. -/
  | nulInPath
  /-- The contents are no UTF-8 where text is asked for. -/
  | notText
  deriving DecidableEq

namespace FileFault

/-- The system's words for a fault. -/
def message : FileFault → String
  | notFound => "No such file or directory (os error 2)"
  | alreadyExists => "File exists (os error 17)"
  | notDirectory => "Not a directory (os error 20)"
  | isDirectory => "Is a directory (os error 21)"
  | nameTooLong => "File name too long (os error 36)"
  | nulInPath => "file name contained an unexpected NUL byte"
  | notText => "stream did not contain valid UTF-8"

end FileFault

namespace FileTree

/-- The tree with nothing below the working directory. -/
def empty : FileTree := ⟨[]⟩

/-- Whether a place is a directory of every tree: the working directory,
what lies above it, and the root. -/
def isAnchor (p : Place) : Bool := p.all (· == "..") || p == ["/"]

/-- What stands at a place. -/
def node? (t : FileTree) (p : Place) : Option Node :=
  if isAnchor p then some .directory else t.entries.lookup p

/-- Whether a directory stands at a place. -/
def isDirectory (t : FileTree) (p : Place) : Bool := t.node? p == some .directory

/-- Puts something at a place. -/
def put (t : FileTree) (p : Place) (n : Node) : FileTree :=
  ⟨(p, n) :: t.entries.filter fun e => !(e.1 == p)⟩

/-- Takes away what stands at a place. -/
def erase (t : FileTree) (p : Place) : FileTree :=
  ⟨t.entries.filter fun e => !(e.1 == p)⟩

theorem lookup_filter_ne (es : List (Place × Node)) {p q : Place} (h : q ≠ p) :
    (es.filter fun e => !(e.1 == p)).lookup q = es.lookup q := by
  induction es with
  | nil => rfl
  | cons e es ih =>
    obtain ⟨r, n⟩ := e
    by_cases hr : r = p
    · subst hr
      simpa [List.lookup_cons, beq_false_of_ne h] using ih
    · simp only [List.filter_cons, beq_eq_false_iff_ne.2 hr, Bool.not_false, if_true,
        List.lookup_cons, ih]

/-- Putting something at a place changes that place only. -/
theorem node?_put (t : FileTree) {p : Place} (hp : isAnchor p = false) (n : Node) (q : Place) :
    (t.put p n).node? q = if q = p then some n else t.node? q := by
  by_cases hq : q = p
  · subst hq
    simp [node?, put, hp]
  · simp only [node?, put, hq, if_false, List.lookup_cons, beq_eq_false_iff_ne.2 hq]
    rw [lookup_filter_ne _ hq]

/-! ## §2. Walking a path. -/

/-- The longest name a directory can hold, in bytes. -/
def nameLimit : Nat := 255

/-- Paths of this many bytes or more are refused. -/
def pathLimit : Nat := 4096

/-- The directory above a place. -/
def above (p : Place) : Place :=
  if p == ["/"] then p
  else if p.all (· == "..") then ".." :: p
  else p.dropLast

/-- One piece of a path further. -/
def step (t : FileTree) (here : Place) (piece : String) : Except FileFault Place :=
  if !t.isDirectory here then .error .notDirectory
  else if piece = "" ∨ piece = "." then .ok here
  else if piece = ".." then .ok (above here)
  else if nameLimit < piece.utf8ByteSize then .error .nameTooLong
  else if (t.node? (here ++ [piece])).isSome then .ok (here ++ [piece])
  else .error .notFound

/-- All pieces of a path, one after the other. -/
def walk (t : FileTree) (here : Place) : List String → Except FileFault Place
  | [] => .ok here
  | piece :: rest =>
    match t.step here piece with
    | .ok next => t.walk next rest
    | .error e => .error e

/-- Where a path starts. -/
def origin (path : String) : Place := if Path.isAbsolute path then ["/"] else []

/-- What is wrong with a path whatever the tree holds. -/
def pathFault? (path : String) : Option FileFault :=
  if path.toList.contains '\x00' then some .nulInPath
  else if path.isEmpty then some .notFound
  else if pathLimit ≤ path.utf8ByteSize then some .nameTooLong
  else none

/-- The place that a path leads to. -/
def locate (t : FileTree) (path : String) : Except FileFault Place :=
  match pathFault? path with
  | some e => .error e
  | none => t.walk (origin path) (Path.pieces path)

/-! ## §3. Reading. -/

/-- Opens what a path leads to, for reading. -/
def openAt (t : FileTree) (path : String) : Except FileFault Node :=
  match t.locate path with
  | .error e => .error e
  | .ok p =>
    match t.node? p with
    | some n => .ok n
    | none => .error .notFound

/-- The bytes of an open entry; a directory can be opened but not read. -/
def contents : Node → Except FileFault Bytes
  | .file bytes => .ok bytes
  | .directory => .error .isDirectory

/-- The bytes of the file that a path leads to. -/
def read (t : FileTree) (path : String) : Except FileFault Bytes :=
  match t.openAt path with
  | .ok n => contents n
  | .error e => .error e

/-- The text of the file that a path leads to. -/
def readText (t : FileTree) (path : String) : Except FileFault String :=
  match t.read path with
  | .error e => .error e
  | .ok bytes =>
    match Text.decode? bytes with
    | some s => .ok s
    | none => .error .notText

/-! ## §4. Writing. -/

/-- Makes the directories that are missing along some pieces.  What was made
before a failure stays.  A file on the way is no directory; one that is met
after something was `made`, or at the end, exists already. -/
def makeAlong (t : FileTree) (made : Bool) (here : Place) :
    List String → FileTree × Except FileFault Unit
  | [] => (t, if t.isDirectory here then .ok () else .error .alreadyExists)
  | piece :: rest =>
    if made && !t.isDirectory here then (t, .error .alreadyExists)
    else
      match t.step here piece with
      | .ok next => t.makeAlong made next rest
      -- A missing name becomes a directory, and the walk goes on in it.
      | .error .notFound =>
        (t.put (here ++ [piece]) .directory).makeAlong true (here ++ [piece]) rest
      | .error e => (t, .error e)

/-- Makes a directory and the ones that are missing on the way to it. -/
def makeDirectories (t : FileTree) (path : String) : FileTree × Except FileFault Unit :=
  if path.isEmpty then (t, .ok ())
  else
    match pathFault? path with
    | some e => (t, .error e)
    | none => t.makeAlong false (origin path) (Path.pieces path)

/-- The place of a file to write: a name in a directory that exists. -/
def target (t : FileTree) (path : String) : Except FileFault Place :=
  match pathFault? path with
  | some e => .error e
  | none =>
    let pieces := Path.pieces path
    match t.walk (origin path) pieces.dropLast, pieces.getLast? with
    -- Only the last name may be missing: the file is made then.
    | .ok here, some name =>
      match t.step here name with
      | .error .notFound => .ok (here ++ [name])
      | other => other
    | .ok here, none => .ok here
    | .error e, _ => .error e

/-- Appends to the file that a path leads to; a missing one is made. -/
def append (t : FileTree) (path : String) (bytes : Bytes) : Except FileFault FileTree :=
  match t.target path with
  | .error e => .error e
  | .ok p =>
    match t.node? p with
    | some .directory => .error .isDirectory
    | some (.file old) => .ok (t.put p (.file (old ++ bytes)))
    | none => .ok (t.put p (.file bytes))

/-- Writes a file anew; a missing one is made. -/
def replace (t : FileTree) (path : String) (bytes : Bytes) : Except FileFault FileTree :=
  match t.target path with
  | .error e => .error e
  | .ok p =>
    if t.isDirectory p then .error .isDirectory else .ok (t.put p (.file bytes))

/-- Removes the file that a path leads to. -/
def remove (t : FileTree) (path : String) : Except FileFault FileTree :=
  match t.locate path with
  | .error e => .error e
  | .ok p => if t.isDirectory p then .error .isDirectory else .ok (t.erase p)

/-! ## §5. Listing. -/

/-- Whether a place lies below the working directory. -/
def isBelow (p : Place) : Bool := p.head? != some ".." && p.head? != some "/"

/-- The path of an entry below the working directory; that of a directory
ends in a slash. -/
def pathOf (p : Place) : Node → String
  | .directory => "/".intercalate p ++ "/"
  | .file _ => "/".intercalate p

/-- Every entry below the working directory by path, with the bytes of a
file. -/
def listing (t : FileTree) : Dict (Option Bytes) :=
  Dict.ofPairs <| (t.entries.filter fun e => isBelow e.1).map fun e =>
    (pathOf e.1 e.2, match e.2 with
      | .file bytes => some bytes
      | .directory => none)

end FileTree

end ReportStore
