/-
  ReportStore.Csv.Scan
  ────────────────────
  **FROM BYTES TO RECORDS.**

  The scanner reads a file byte by byte: a comma ends a field, a line feed
  or a carriage return ends a record, and neither counts inside quotes.  A
  quote opens a quoted field only as the field's first byte; inside, two
  quotes stand for one, and after the closing quote bytes are taken as they
  are.  Lines with nothing on them are skipped.  What was read so far is
  the whole state, so a file that grows is scanned on from where its old
  bytes ended:

      scan s (a ++ b) = scan (scan s a) b
-/
import ReportStore.Csv.Position
import ReportStore.Text.Utf8

namespace ReportStore.Csv

/-! ## §1. The special bytes. -/

def comma : UInt8 := 0x2C

def quote : UInt8 := 0x22

def lineFeed : UInt8 := 0x0A

def carriageReturn : UInt8 := 0x0D

/-- Whether a byte ends a record. -/
def isTerminator (b : UInt8) : Bool := b == lineFeed || b == carriageReturn

/-- The bytes that may open a file without belonging to it. -/
def byteOrderMark : Bytes := [0xEF, 0xBB, 0xBF]

/-! ## §2. The scanner. -/

/-- A record as it was read: its fields without their quotes. -/
structure RawRecord where
  start : Mark
  fields : List Bytes
  deriving DecidableEq

/-- What the byte before was part of. -/
inductive Site where
  /-- Nothing of a record read yet. -/
  | between
  /-- At the first byte of a field. -/
  | fieldStart
  /-- In a field without quotes, or after its closing quote. -/
  | bare
  /-- Between the quotes of a field. -/
  | quoted
  /-- After a quote inside a quoted field. -/
  | afterQuote
  deriving DecidableEq

/-- Everything that was read so far.  Lists are kept latest first. -/
structure Scan where
  site : Site
  /-- The bytes of the field being read. -/
  field : Bytes
  /-- The fields of the record being read. -/
  fields : List Bytes
  /-- Where reading of this record began. -/
  start : Mark
  /-- The byte to read next. -/
  here : Mark
  /-- The finished records. -/
  finished : List RawRecord

namespace Scan

/-- A scanner at the start of a file. -/
def initial : Scan := ⟨.between, [], [], ⟨0, 1⟩, ⟨0, 1⟩, []⟩

/-- Takes a byte into the field. -/
def take (s : Scan) (site : Site) (b : UInt8) : Scan := { s with site, field := b :: s.field }

/-- Ends the field. -/
def endField (s : Scan) : Scan :=
  { s with site := .fieldStart, field := [], fields := s.field.reverse :: s.fields }

/-- Ends the field and the record. -/
def endRecord (s : Scan) : Scan :=
  { s with
    site := .between, field := [], fields := [], start := s.here
    finished := ⟨s.start, (s.field.reverse :: s.fields).reverse⟩ :: s.finished }

/-- Counts a byte. -/
def count (s : Scan) (b : UInt8) : Scan :=
  { s with here := ⟨s.here.byte + 1, if b = lineFeed then s.here.line + 1 else s.here.line⟩ }

/-- A byte outside quotes. -/
def outside (s : Scan) (b : UInt8) : Scan :=
  if b = comma then s.endField
  else if isTerminator b then s.endRecord
  else s.take .bare b

/-- A byte at the start of a field. -/
def opening (s : Scan) (b : UInt8) : Scan :=
  if b = quote then { s with site := .quoted } else s.outside b

/-- The state after one more byte; the byte is counted first, so that the
next record starts after its terminator. -/
def step (s : Scan) (b : UInt8) : Scan :=
  let s := s.count b
  match s.site with
  -- A line end between records skips an empty line, or is the second half of
  -- a line end of two bytes.
  | .between => if isTerminator b then s else s.opening b
  | .fieldStart => s.opening b
  | .bare => s.outside b
  | .quoted => if b = quote then { s with site := .afterQuote } else s.take .quoted b
  | .afterQuote => if b = quote then s.take .quoted b else s.outside b

/-- The state after some more bytes. -/
def run (s : Scan) (bs : Bytes) : Scan := bs.foldl step s

/-- The records of a file that ends here: an unfinished record counts, an
open quote notwithstanding. -/
def records (s : Scan) : List RawRecord :=
  match s.site with
  | .between => s.finished.reverse
  -- A file may end without a line end.
  | _ => s.endRecord.finished.reverse

theorem run_append (s : Scan) (a b : Bytes) : s.run (a ++ b) = (s.run a).run b :=
  List.foldl_append ..

end Scan

/-- The records of a file; a byte order mark at its start is passed over. -/
def rawRecords (bs : Bytes) : List RawRecord :=
  if bs.take 3 = byteOrderMark then
    (Scan.run { Scan.initial with here := ⟨3, 1⟩ } (bs.drop 3)).records
  else (Scan.initial.run bs).records

end ReportStore.Csv
