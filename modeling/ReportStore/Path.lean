/-
  ReportStore.Path
  ────────────────
  **PATHS AS TEXTS.**

  A path is kept as the text it was given as, because messages show it that
  way.  It is joined to a base, split at its slashes when a file is looked
  up, and asked for the name of the file it ends in.
-/
import ReportStore.Text.Pieces
import ReportStore.Text.Utf8

namespace ReportStore.Path

/-! ## §1. Joining. -/

/-- Whether a path starts at the root. -/
def isAbsolute (path : String) : Bool := path.toList.head? == some '/'

/-- A path below a base.  An absolute path stands for itself; an empty base
adds nothing; an empty path leaves a slash at the end. -/
def join (base path : String) : String :=
  if isAbsolute path || base.isEmpty then path
  else if base.toList.getLast? == some '/' then base ++ path
  else base ++ "/" ++ path

/-! ## §2. Pieces. -/

/-- The pieces of a path, empty ones among them. -/
def pieces (path : String) : List String := (Text.pieces '/' path.toList).map String.ofList

/-- The paths of the entries on the way to the end of a path. -/
def waypoints (path : String) : List String :=
  let ps := pieces path
  (((List.range ps.length).map fun i => "/".intercalate (ps.take (i + 1))).filter
    fun p => !p.isEmpty).eraseDups

/-- The name of the file a path ends in: the last piece, slashes and `.`
at the end apart; empty if the path ends in `..` or has no piece. -/
def fileName (path : String) : String :=
  match ((pieces path).filter fun p => p != "" && p != ".").getLast? with
  | some name => if name = ".." then "" else name
  | none => ""

/-! ## §3. Names of one file. -/

/-- Whether a text can name an entry of a directory without leading anywhere
else: not empty, no dots that move, no separator. -/
def isPlain (name : String) : Bool :=
  name != "" && name != "." && name != ".." &&
    name.toList.all fun c => c != '/' && c != '\\'

end ReportStore.Path
