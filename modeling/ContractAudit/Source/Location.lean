/-!
Places in a source text. A location counts lines, columns in characters and offsets in bytes, and is
what the text before it amounts to; a span is a pair of locations.
-/
namespace ContractAudit.Source

structure Location where
  line : Nat
  column : Nat
  /-- Bytes of UTF-8 before this place. -/
  offset : Nat
deriving DecidableEq, Inhabited

namespace Location

def start : Location := ⟨1, 1, 0⟩

/-- The place after one more character; only a newline begins a new line. -/
def advance (l : Location) (c : Char) : Location :=
  if c = '\n' then ⟨l.line + 1, 1, l.offset + c.utf8Size⟩
  else ⟨l.line, l.column + 1, l.offset + c.utf8Size⟩

def advanceOver (l : Location) (cs : List Char) : Location := cs.foldl advance l

theorem advanceOver_append (l : Location) (a b : List Char) :
    l.advanceOver (a ++ b) = (l.advanceOver a).advanceOver b := List.foldl_append

def text (l : Location) : String := s!"{l.line}:{l.column}"

end Location

/-- The part of the text from `start` up to, and not including, `finish`. -/
structure Span where
  start : Location
  finish : Location
deriving DecidableEq, Inhabited

namespace Span

def single (l : Location) : Span := ⟨l, l⟩

def lines (s : Span) : Nat × Nat := (s.start.line, s.finish.line)

def text (s : Span) : String :=
  if s.start.line = s.finish.line then
    if s.start.column = s.finish.column then s.start.text
    else s!"{s.start.text}-{s.finish.column}"
  else s!"{s.start.text}-{s.finish.text}"

end Span

end ContractAudit.Source
